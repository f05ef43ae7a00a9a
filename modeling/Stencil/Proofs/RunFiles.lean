import Stencil.Proofs.CacheHistory

/-!
# A run of several files

Writing a file changes no path, so files that are apart stay apart during a run,
and each keeps what its own turn left.  A run with a cache therefore ends with an
entry for every file that did not fail, and a second run skips all of these.
-/

namespace Stencil

namespace Runner

variable {runner : Runner} {now : Nat}

/-- A run leaves the files alone or writes over its own, also when it fails. -/
theorem overwrites_runFile (runner : Runner) (now : Nat) (path : Bytes) (workspace : Workspace) :
    Files.Overwrites path workspace.files (runner.runFile now path workspace).2.files := by
  unfold runFile
  cases Files.status workspace.files path with
  | error failure => exact .inl rfl
  | ok node =>
      dsimp only
      cases readable : Files.read workspace.files path with
      | error failure => exact .inl rfl
      | ok input =>
          dsimp only
          split
          · exact .inl rfl
          split
          · obtain ⟨failure, files, refused, overwrites⟩ | ⟨files, stored, -, overwrites⟩ :=
              store_cases runner now (runner.resultOf path input) readable
            · rw [refused]
              exact overwrites
            · rw [stored]
              exact overwrites
          · exact .inl rfl

theorem sameShape_runFile (runner : Runner) (now : Nat) (path : Bytes) (workspace : Workspace) :
    Files.SameShape (runner.runFile now path workspace).2.files workspace.files :=
  (runner.overwrites_runFile now path workspace).sameShape

/-- A path that leads elsewhere reads the same after a run. -/
theorem read_runFile_of_apart {path other kept : Bytes} {workspace : Workspace}
    (apart : ¬ Files.SameFile workspace.files path other)
    (unchanged : Files.read workspace.files other = .ok kept) (now : Nat) :
    Files.read (runner.runFile now path workspace).2.files other = .ok kept :=
  (runner.overwrites_runFile now path workspace).read_of_apart apart unchanged

theorem path_runFile (runner : Runner) (now : Nat) (path : Bytes) (workspace : Workspace) :
    (runner.runFile now path workspace).1.path = path := by
  unfold runFile
  split
  · rfl
  split
  · rfl
  split
  · rfl
  split
  · unfold store
    dsimp only
    split <;> rfl
  · rfl

theorem paths_runFiles (runner : Runner) (clock : Nat → Nat) (paths : List Bytes)
    (workspace : Workspace) : (runner.runFiles clock paths workspace).1.map (·.path) = paths := by
  induction paths generalizing clock workspace with
  | nil => rfl
  | cons path paths ih =>
      rw [runFiles, List.map_cons, path_runFile, ih]

end Runner

namespace Workspace

/-- What happens to a workspace with a cache during a run: no path leads elsewhere, and
the cache stays where it is and changes only when something is recorded. -/
structure Continues (before after : Workspace) : Prop where
  shape : Files.SameShape after.files before.files
  cache : ∀ cache, before.cache = some cache → ∃ later, after.cache = some later ∧
    later.folder = cache.folder ∧ later.maxAge = cache.maxAge ∧
    (later.dirty = true ∨ later = cache)

theorem Continues.refl (workspace : Workspace) : Continues workspace workspace :=
  ⟨.refl _, fun cache shared => ⟨cache, shared, rfl, rfl, .inr rfl⟩⟩

theorem Continues.trans {first second third : Workspace} (left : Continues first second)
    (right : Continues second third) : Continues first third := by
  refine ⟨right.shape.trans left.shape, fun cache shared => ?_⟩
  obtain ⟨middle, sharedThen, folder, age, changes⟩ := left.cache cache shared
  obtain ⟨last, sharedLast, folderLast, ageLast, changesLast⟩ := right.cache middle sharedThen
  refine ⟨last, sharedLast, folderLast.trans folder, ageLast.trans age, ?_⟩
  rcases changesLast with dirty | rfl
  · exact .inl dirty
  · exact changes

theorem continues_runFile {runner : Runner} (writes : runner.mode = .write) (now : Nat)
    (path : Bytes) (workspace : Workspace) :
    Continues workspace (runner.runFile now path workspace).2 := by
  refine ⟨runner.sameShape_runFile now path workspace, fun cache shared => ?_⟩
  have runs := runner.runs_runFile writes now path workspace
  generalize runner.runFile now path workspace = outcome at runs
  obtain ⟨result, behind⟩ := outcome
  cases runs with
  | failed failure unknown overwrites => exact ⟨cache, shared, rfl, rfl, .inr rfl⟩
  | skipped failure known readable fresh => exact ⟨cache, shared, rfl, rfl, .inr rfl⟩
  | processed failure unknown readable stale left overwrites =>
      rw [shared]
      exact ⟨_, rfl, rfl, rfl, .inl rfl⟩

theorem continues_runFiles {runner : Runner} (writes : runner.mode = .write) (clock : Nat → Nat)
    (paths : List Bytes) (workspace : Workspace) :
    Continues workspace (runner.runFiles clock paths workspace).2 := by
  induction paths generalizing clock workspace with
  | nil => exact .refl _
  | cons path paths ih => exact (continues_runFile writes _ path workspace).trans (ih _ _)

/-- The cache knows the content of a file as what the rules left. -/
structure Remembers (workspace : Workspace) (digest path content : Bytes) : Prop where
  holds : Files.read workspace.files path = .ok content
  recorded : ∃ entry, workspace.recorded? path = some entry ∧
    entry.hash = contentHash content ∧ entry.digest = digest

section Remembers

variable {runner : Runner} {workspace : Workspace} {now : Nat} {path other content digest : Bytes}

/-- A run that does not fail is remembered. -/
theorem remembers_runFile (writes : runner.mode = .write) {cache : Cache}
    (shared : workspace.cache = some cache)
    (succeeds : (runner.runFile now path workspace).1.failure = none) :
    ∃ content, (runner.runFile now path workspace).2.Remembers runner.digest path content := by
  have runs := runner.runs_runFile writes now path workspace
  generalize runner.runFile now path workspace = outcome at runs succeeds
  obtain ⟨result, behind⟩ := outcome
  cases runs with
  | failed failure unknown overwrites => exact absurd succeeds failure
  | @skipped input failure known readable fresh =>
      refine ⟨input, readable, ?_⟩
      rw [Runner.isFresh, shared, Option.any_some, Bool.and_eq_true, Cache.fresh] at fresh
      rw [recorded?, shared, Option.bind_some]
      cases entered : cache.entries.get? path with
      | none =>
          rw [entered] at fresh
          exact absurd fresh.2 Bool.false_ne_true
      | some entry =>
          rw [entered] at fresh
          simp only [Bool.and_eq_true, beq_iff_eq] at fresh
          exact ⟨entry, rfl, fresh.2.2, fresh.2.1.1⟩
  | @processed input files failure unknown readable stale left overwrites =>
      refine ⟨_, left, ⟨contentHash (runner.process input).1, runner.digest, now⟩, ?_, rfl, rfl⟩
      rw [recorded?, shared]
      exact Keyed.get?_put_self _ _ _

/-- A run of a file that is apart changes nothing about that. -/
theorem Remembers.runFile_of_apart (remembers : workspace.Remembers digest path content)
    (writes : runner.mode = .write) (apart : ¬ Files.SameFile workspace.files other path)
    (now : Nat) : (runner.runFile now other workspace).2.Remembers digest path content := by
  refine ⟨Runner.read_runFile_of_apart apart remembers.holds now, ?_⟩
  have differ : ¬ other = path := by
    rintro rfl
    exact apart (Files.sameFile_self remembers.holds)
  have kept : (workspace.after (.run runner now other)).recorded? path = workspace.recorded? path :=
    recorded?_after_of_not_ends writes fun ends => differ ends.1
  rw [after_run] at kept
  rw [kept]
  exact remembers.recorded

theorem Remembers.runFiles_of_apart (remembers : workspace.Remembers digest path content)
    (writes : runner.mode = .write) {paths : List Bytes}
    (apart : ∀ other ∈ paths, ¬ Files.SameFile workspace.files other path)
    (clock : Nat → Nat) :
    (runner.runFiles clock paths workspace).2.Remembers digest path content := by
  induction paths generalizing clock workspace with
  | nil => exact remembers
  | cons other paths ih =>
      obtain ⟨first, later⟩ := List.forall_mem_cons.mp apart
      apply ih (remembers.runFile_of_apart writes first (clock 0))
      intro next member
      rw [(runner.sameShape_runFile (clock 0) other workspace).sameFile_iff]
      exact later next member

/-- A file that is remembered is skipped, unless entries expire. -/
theorem Remembers.runFile_eq (remembers : workspace.Remembers runner.digest path content)
    (writes : runner.mode = .write)
    (ageless : ∀ cache, workspace.cache = some cache → cache.maxAge ≤ 0) (now : Nat) :
    runner.runFile now path workspace =
      ({ path, input := content, output := content, cached := true }, workspace) := by
  apply Runner.runFile_of_fresh remembers.holds
  obtain ⟨entry, recorded, hash, rules⟩ := remembers.recorded
  obtain ⟨cache, shared, entered⟩ := Option.bind_eq_some_iff.mp recorded
  have young : ¬ 0 < cache.maxAge := Int.not_lt.mpr (ageless cache shared)
  simp [Runner.isFresh, writes, shared, Cache.fresh, entered, hash, rules, Cache.expired, young]

/-- What a second run does about a file that is remembered. -/
theorem Remembers.runFiles (remembers : workspace.Remembers runner.digest path content)
    (writes : runner.mode = .write)
    (ageless : ∀ cache, workspace.cache = some cache → cache.maxAge ≤ 0) {paths : List Bytes}
    (alone : ∀ other ∈ paths, other ≠ path → ¬ Files.SameFile workspace.files other path)
    (clock : Nat → Nat) :
    (runner.runFiles clock paths workspace).2.Remembers runner.digest path content ∧
      (path ∈ paths → { path, input := content, output := content, cached := true } ∈
        (runner.runFiles clock paths workspace).1) := by
  induction paths generalizing clock workspace with
  | nil => exact ⟨remembers, fun member => nomatch member⟩
  | cons other paths ih =>
      obtain ⟨first, later⟩ := List.forall_mem_cons.mp alone
      rw [Runner.runFiles]
      by_cases same : other = path
      · subst same
        rw [remembers.runFile_eq writes ageless (clock 0)]
        obtain ⟨still, -⟩ := ih remembers ageless later fun turn => clock (turn + 1)
        exact ⟨still, fun _ => List.mem_cons_self⟩
      · have next := remembers.runFile_of_apart writes (first same) (clock 0)
        have young : ∀ cache, (runner.runFile (clock 0) other workspace).2.cache = some cache →
            cache.maxAge ≤ 0 := by
          intro cache shared
          obtain ⟨entry, recorded, -⟩ := remembers.recorded
          obtain ⟨before, sharedBefore, -⟩ := Option.bind_eq_some_iff.mp recorded
          obtain ⟨after, sharedAfter, -, age, -⟩ :=
            (continues_runFile writes (clock 0) other workspace).cache before sharedBefore
          obtain rfl : cache = after := Option.some.inj (shared.symm.trans sharedAfter)
          rw [age]
          exact ageless before sharedBefore
        have others : ∀ third ∈ paths, third ≠ path →
            ¬ Files.SameFile (runner.runFile (clock 0) other workspace).2.files third path := by
          intro third member differ
          rw [(runner.sameShape_runFile (clock 0) other workspace).sameFile_iff]
          exact later third member differ
        obtain ⟨still, skipped⟩ := ih next young others fun turn => clock (turn + 1)
        refine ⟨still, fun member => List.mem_cons_of_mem _ (skipped ?_)⟩
        exact (List.mem_cons.mp member).resolve_left fun same' => same same'.symm

/-- Every file of a run that did not fail is remembered at its end. -/
theorem remembers_runFiles (writes : runner.mode = .write) {cache : Cache}
    (shared : workspace.cache = some cache) {paths : List Bytes}
    (apart : paths.Pairwise fun left right => ¬ Files.SameFile workspace.files left right)
    {clock : Nat → Nat} {result : Result}
    (member : result ∈ (runner.runFiles clock paths workspace).1)
    (succeeds : result.failure = none) :
    ∃ content, (runner.runFiles clock paths workspace).2.Remembers runner.digest result.path
      content := by
  induction paths generalizing clock workspace cache with
  | nil => cases member
  | cons path paths ih =>
      obtain ⟨first, later⟩ := List.pairwise_cons.mp apart
      have shape := runner.sameShape_runFile (clock 0) path workspace
      rw [Runner.runFiles] at member ⊢
      rcases List.mem_cons.mp member with rfl | member
      · obtain ⟨content, remembers⟩ := remembers_runFile writes shared succeeds
        rw [Runner.path_runFile]
        refine ⟨content, remembers.runFiles_of_apart writes ?_ _⟩
        intro other isLater same
        rw [shape.sameFile_iff] at same
        exact first other isLater same.symm
      · obtain ⟨after, sharedAfter, -⟩ :=
          (continues_runFile writes (clock 0) path workspace).cache cache shared
        apply ih sharedAfter _ member
        simpa only [shape.sameFile_iff] using later

end Remembers

end Workspace

end Stencil
