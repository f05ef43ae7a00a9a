import Stencil.Proofs.RunOrder

/-!
# A dry run predicts the run that writes

Without a cache the result of a file depends on what its path finds and on the rules,
but not on the mode.  A dry run changes nothing, so the run that follows it finds the
files that the dry run found.  What it writes are the outputs of the results that say
that the text changed, each at the place its path leads to, and no other place is
touched.
-/

namespace Stencil

namespace Deed

/-- A deed that writes over a file, if it writes. -/
def Overwrites (deed : Deed) (tree : Files.Node) : Prop :=
  ∀ place, deed.place = some place → ∃ old, tree.get? place = some (.file old)

theorem Overwrites.of_sameShape {deed : Deed} {tree after : Files.Node}
    (overwrites : deed.Overwrites tree) (shape : Files.SameShape after tree) :
    deed.Overwrites after := by
  intro place written
  obtain ⟨old, found⟩ := overwrites place written
  have alike := shape place
  rw [found] at alike
  generalize after.get? place = node at alike
  cases alike with
  | file content _ => exact ⟨content, rfl⟩

theorem Overwrites.sameShape {deed : Deed} {tree : Files.Node}
    (overwrites : deed.Overwrites tree) : Files.SameShape (deed.write tree) tree := by
  unfold write
  split
  · exact .refl _
  · next place written =>
      obtain ⟨old, found⟩ := overwrites place written
      exact Files.Node.sameShape_put found _

theorem Overwrites.get?_write_iff {deed : Deed} {tree : Files.Node}
    (overwrites : deed.Overwrites tree) {place : Files.Location}
    (elsewhere : deed.place ≠ some place) (content : Bytes) :
    (deed.write tree).get? place = some (.file content) ↔
      tree.get? place = some (.file content) := by
  unfold write
  split
  · exact .rfl
  · next other written =>
      obtain ⟨old, found⟩ := overwrites other written
      apply Files.Node.get?_put_eq_file_iff found
      rintro rfl
      exact elsewhere written

theorem Overwrites.get?_write {deed : Deed} {tree : Files.Node}
    (overwrites : deed.Overwrites tree) {place : Files.Location}
    (written : deed.place = some place) :
    (deed.write tree).get? place = some (.file deed.output) := by
  obtain ⟨old, found⟩ := overwrites place written
  unfold write
  rw [written]
  exact Files.Node.get?_put_self found _

section WriteAll

variable {deeds : List Deed} {tree : Files.Node}

/-- The files after some deeds. -/
def writeAll (deeds : List Deed) (tree : Files.Node) : Files.Node :=
  deeds.foldl (fun tree deed => deed.write tree) tree

theorem sameShape_writeAll (overwrite : ∀ deed ∈ deeds, deed.Overwrites tree) :
    Files.SameShape (writeAll deeds tree) tree := by
  induction deeds generalizing tree with
  | nil => exact .refl _
  | cons deed deeds ih =>
      obtain ⟨first, later⟩ := List.forall_mem_cons.mp overwrite
      refine Files.SameShape.trans (ih ?_) first.sameShape
      intro other member
      exact (later other member).of_sameShape first.sameShape

theorem get?_writeAll_iff (overwrite : ∀ deed ∈ deeds, deed.Overwrites tree)
    {place : Files.Location} (elsewhere : ∀ deed ∈ deeds, deed.place ≠ some place)
    (content : Bytes) :
    (writeAll deeds tree).get? place = some (.file content) ↔
      tree.get? place = some (.file content) := by
  induction deeds generalizing tree with
  | nil => exact .rfl
  | cons deed deeds ih =>
      obtain ⟨first, later⟩ := List.forall_mem_cons.mp overwrite
      obtain ⟨apart, others⟩ := List.forall_mem_cons.mp elsewhere
      refine Iff.trans (ih ?_ others) (first.get?_write_iff apart content)
      intro other member
      exact (later other member).of_sameShape first.sameShape

/-- When the deeds at a place agree, the place holds what they agree on. -/
theorem get?_writeAll (overwrite : ∀ deed ∈ deeds, deed.Overwrites tree) {deed : Deed}
    (member : deed ∈ deeds) {place : Files.Location} (written : deed.place = some place)
    (agree : ∀ other ∈ deeds, other.place = some place → other.output = deed.output) :
    (writeAll deeds tree).get? place = some (.file deed.output) := by
  induction deeds generalizing tree deed with
  | nil => cases member
  | cons first deeds ih =>
      obtain ⟨overwrites, later⟩ := List.forall_mem_cons.mp overwrite
      have still : ∀ other ∈ deeds, other.Overwrites (first.write tree) := by
        intro other member
        exact (later other member).of_sameShape overwrites.sameShape
      -- The last deed at the place decides, so the later deeds are asked first.
      by_cases again : ∃ other ∈ deeds, other.place = some place
      · obtain ⟨other, otherMember, otherWritten⟩ := again
        have same := agree other (List.mem_cons_of_mem _ otherMember) otherWritten
        rw [← same]
        apply ih still otherMember otherWritten
        intro third thirdMember thirdWritten
        rw [same]
        exact agree third (List.mem_cons_of_mem _ thirdMember) thirdWritten
      · have elsewhere : ∀ other ∈ deeds, other.place ≠ some place := by
          intro other otherMember otherWritten
          exact again ⟨other, otherMember, otherWritten⟩
        rcases List.mem_cons.mp member with rfl | laterMember
        · exact (get?_writeAll_iff still elsewhere _).mpr (overwrites.get?_write written)
        · exact absurd written (elsewhere deed laterMember)

end WriteAll

end Deed

/-- A workspace without a cache in which every write succeeds. -/
structure Workspace.Plain (workspace : Workspace) : Prop where
  uncached : workspace.cache = none
  faultless : ∀ path, workspace.faults path = none

namespace Runner

section Plain

variable {runner : Runner} {now : Nat} {path : Bytes} {workspace : Workspace}

theorem isFresh_of_uncached (uncached : workspace.cache = none) (content : Bytes) :
    runner.isFresh workspace now path content = false := by
  simp [isFresh, uncached]

theorem result_of_read (plain : workspace.Plain) {input : Bytes}
    (readable : Files.read workspace.files path = .ok input) :
    (runner.runFile now path workspace).1 = runner.resultOf path input := by
  rw [runFile_of_read readable, report, isFresh_of_uncached plain.uncached]
  simp [refusal?, plain.faultless, resultOf]

/-- Without a cache, runners with the same rules have the same result at any time and in
any mode. -/
theorem result_eq_of_plain (plain : workspace.Plain) {other : Runner}
    (rules : runner.process = other.process) (later : Nat) :
    (runner.runFile now path workspace).1 = (other.runFile later path workspace).1 := by
  cases readable : Files.read workspace.files path with
  | ok input =>
      rw [result_of_read plain readable, result_of_read plain readable, resultOf, rules]
      rfl
  | error failure =>
      unfold runFile
      rw [readable]

theorem deed?_of_read (plain : workspace.Plain) (writes : runner.mode = .write)
    {input : Bytes} {location : Files.Location}
    (readable : Files.read workspace.files path = .ok input)
    (leads : Files.resolve workspace.files true path = .ok (.taken location)) :
    runner.deed? now path workspace =
      some { path, output := (runner.process input).1,
             place := if (runner.process input).1 = input then none else some location,
             remembered := true } := by
  simp only [deed?, readable, leads, writes, isFresh_of_uncached plain.uncached,
    plain.faultless, and_self, if_true]
  split <;> rfl

end Plain

section Written

variable {runner : Runner} {now : Nat} {paths : List Bytes} {start : Workspace}

theorem outlook_const (runner : Runner) (now : Nat) (paths : List Bytes) (start : Workspace) :
    runner.outlook (fun _ => now) paths start =
      paths.map fun path => (runner.runFile now path start).1 := by
  conv_rhs => rw [← List.zipIdx_map_fst 0 paths, List.map_map]
  rfl

theorem mem_deeds {deed : Deed} :
    deed ∈ runner.deeds (fun _ => now) paths start ↔
      ∃ path ∈ paths, runner.deed? now path start = some deed := by
  have unnumbered : runner.deeds (fun _ => now) paths start =
      paths.filterMap (runner.deed? now · start) := by
    conv_rhs => rw [← List.zipIdx_map_fst 0 paths, List.filterMap_map]
    rfl
  rw [unnumbered, List.mem_filterMap]

theorem overwrites_of_mem_deeds {deed : Deed}
    (member : deed ∈ runner.deeds (fun _ => now) paths start) : deed.Overwrites start.files := by
  obtain ⟨path, -, due⟩ := mem_deeds.mp member
  obtain ⟨-, input, location, -, -, found, placed⟩ := deed?_sound due
  intro place written
  cases placed place written
  exact ⟨input, found⟩

/-- What is written is the output of a result that says that the text changed. -/
theorem changed_of_mem_deeds (plain : start.Plain) (writes : runner.mode = .write)
    {deed : Deed} (member : deed ∈ runner.deeds (fun _ => now) paths start) {place : Files.Location}
    (written : deed.place = some place) :
    ∃ path ∈ paths, (runner.runFile now path start).1.changed = true ∧
      Files.resolve start.files true path = .ok (.taken place) := by
  obtain ⟨path, pathMember, due⟩ := mem_deeds.mp member
  obtain ⟨-, input, location, readable, leads, -, placed⟩ := deed?_sound due
  cases placed place written
  refine ⟨path, pathMember, ?_, leads⟩
  rw [deed?_of_read plain writes readable leads, Option.some.injEq] at due
  subst due
  have differ : ¬ (runner.process input).1 = input := by
    intro same
    simp [same] at written
  rw [result_of_read plain readable]
  simp [Result.changed, resultOf, Ne.symm differ]

/-- A file that can be read holds its output when all deeds are done. -/
theorem read_writeAll (plain : start.Plain) (writes : runner.mode = .write)
    (apart : paths.Pairwise fun path other => ¬ Files.SameFile start.files path other)
    {path input : Bytes} (member : path ∈ paths)
    (readable : Files.read start.files path = .ok input) :
    Files.read (Deed.writeAll (runner.deeds (fun _ => now) paths start) start.files) path =
      .ok (runner.process input).1 := by
  have overwrite : ∀ deed ∈ runner.deeds (fun _ => now) paths start, deed.Overwrites start.files :=
    fun deed due => overwrites_of_mem_deeds due
  obtain ⟨location, leads, found⟩ :=
    Files.find_eq_ok_iff.mp (Files.read_eq_ok_iff.mp readable)
  have due : runner.deed? now path start = some _ := deed?_of_read plain writes readable leads
  have dueMember : _ ∈ runner.deeds (fun _ => now) paths start :=
    mem_deeds.mpr ⟨path, member, due⟩
  -- No other deed is done where the path leads.
  have alone : ∀ other ∈ runner.deeds (fun _ => now) paths start, other.place = some location →
      other.path = path := by
    intro other otherMember otherWritten
    obtain ⟨otherPath, otherPathMember, otherDue⟩ := mem_deeds.mp otherMember
    obtain ⟨named, -, elsewhere, -, otherLeads, -, placed⟩ := deed?_sound otherDue
    cases placed location otherWritten
    rw [named]
    by_contra differ
    have symm : Std.Symm fun path other => ¬ Files.SameFile start.files path other :=
      ⟨fun _ _ apart same => apart same.symm⟩
    exact apart.forall otherPathMember member differ ⟨location, otherLeads, leads⟩
  have own : ∀ other ∈ runner.deeds (fun _ => now) paths start, other.path = path →
      some other = runner.deed? now path start := by
    intro other otherMember named
    obtain ⟨otherPath, -, otherDue⟩ := mem_deeds.mp otherMember
    rw [← otherDue, ← (deed?_sound otherDue).1, named]
  rw [Files.read_eq_ok_iff, Files.find_eq_ok_iff, (Deed.sameShape_writeAll overwrite).resolve_eq]
  refine ⟨location, leads, ?_⟩
  by_cases same : (runner.process input).1 = input
  · rw [same]
    refine (Deed.get?_writeAll_iff overwrite ?_ input).mpr found
    intro other otherMember otherWritten
    have equal := own other otherMember (alone other otherMember otherWritten)
    rw [due, if_pos same, Option.some.injEq] at equal
    rw [equal] at otherWritten
    cases otherWritten
  · refine Deed.get?_writeAll overwrite dueMember (if_neg same) ?_
    intro other otherMember otherWritten
    have equal := own other otherMember (alone other otherMember otherWritten)
    rw [due, Option.some.injEq] at equal
    rw [equal]

/-- A run that prints nothing does not fail as a whole. -/
theorem failure_of_silent (silent : runner.mode ≠ .print) (capacity : Option Nat)
    (ran : List Result × Workspace) : (runner.finish capacity ran).failure = none := by
  simp [finish, printable, silent]

/-- What a run in a plain workspace leaves, whatever the order of its jobs. -/
theorem runJobs_of_plain (runner : Runner) (now : Nat) (plain : start.Plain)
    (apart : paths.Pairwise fun path other => ¬ Files.SameFile start.files path other)
    {jobs : List Job} (all : (jobs.map fun job => (job.path, job.index)).Perm paths.zipIdx)
    (capacity : Option Nat) :
    (runner.runJobs capacity paths jobs start).results =
        (paths.map fun path => (runner.runFile now path start).1) ∧
      (runner.runJobs capacity paths jobs start).workspace.files =
        Deed.writeAll (runner.deeds (fun _ => now) paths start) start.files := by
  have onTime := onTime_turn all
  have steady : ∀ entry ∈ paths.zipIdx, runner.Steady start entry.1 (turn jobs entry.2) now := by
    intro entry _
    apply steady_of_ageless
    intro cache held
    rw [plain.uncached] at held
    cases held
  rw [runJobs_eq runner capacity apart all onTime, ← outlook_const, ← deeds_eq steady]
  exact ⟨outlook_eq_iff.mpr steady, (commitAll_eq runner apart all onTime start).1⟩

end Written

section Predicted

variable {tree : Files.Node} {paths : List Bytes} {jobs laterJobs : List Job}

/-- Without a cache, and when the files are different ones, a dry run predicts the run
that writes, whatever the order of their jobs: the results are the same and so are their
sums, every file that can be read then holds the output of its result, every place that
no changed result leads to holds what it held, and no path leads elsewhere. -/
theorem dryRun_predicts (runner : Runner) (capacity : Option Nat)
    (apart : paths.Pairwise fun path other => ¬ Files.SameFile tree path other)
    (all : (jobs.map fun job => (job.path, job.index)).Perm paths.zipIdx)
    (allLater : (laterJobs.map fun job => (job.path, job.index)).Perm paths.zipIdx) :
    let dry : Runner := { runner with mode := .dryRun }
    let writing : Runner := { runner with mode := .write }
    let predicted := dry.runJobs capacity paths jobs { files := tree }
    let actual := writing.runJobs capacity paths laterJobs predicted.workspace
    predicted.failure = none ∧ actual.failure = none ∧
      actual.results = predicted.results ∧ actual.results.map (·.path) = paths ∧
      (∀ path ∈ paths, ∀ input, Files.read tree path = .ok input →
        ∃ result ∈ predicted.results, result.path = path ∧ result.input = input ∧
          (result.output, result.stats) = runner.process input ∧ result.failure = none ∧
          Files.read actual.workspace.files path = .ok result.output) ∧
      (∀ place, (∀ result ∈ predicted.results, result.changed = true →
          Files.resolve tree true result.path ≠ .ok (.taken place)) →
        ∀ content, actual.workspace.files.get? place = some (.file content) ↔
          tree.get? place = some (.file content)) ∧
      Files.SameShape actual.workspace.files tree ∧
      Totals.ofResults actual.results = Totals.ofResults predicted.results := by
  intro dry writing predicted actual
  have plain : Workspace.Plain { files := tree } := ⟨rfl, fun _ => rfl⟩
  have rules : writing.process = dry.process := rfl
  have idle : dry.mode ≠ .write := nofun
  have drySilent : dry.mode ≠ .print := nofun
  have writingSilent : writing.mode ≠ .print := nofun
  have unchanged : predicted.workspace = { files := tree } := foldl_take_of_not_write idle _ jobs
  obtain ⟨foretold, -⟩ := dry.runJobs_of_plain 0 plain apart all capacity
  have ran : actual = writing.runJobs capacity paths laterJobs { files := tree } :=
    congrArg (writing.runJobs capacity paths laterJobs) unchanged
  obtain ⟨results, files⟩ := writing.runJobs_of_plain 0 plain apart allLater capacity
  rw [← ran] at results files
  have same : actual.results = predicted.results := by
    refine results.trans (Eq.trans (List.map_congr_left ?_) foretold.symm)
    intro path _
    exact result_eq_of_plain plain rules 0
  have overwrite : ∀ deed ∈ writing.deeds (fun _ => 0) paths { files := tree },
      deed.Overwrites tree :=
    fun deed due => overwrites_of_mem_deeds due
  refine ⟨failure_of_silent drySilent capacity _, failure_of_silent writingSilent capacity _,
    same, ?_, ?_, ?_, ?_, congrArg Totals.ofResults same⟩
  · rw [results, List.map_map]
    exact List.map_id'' (fun path => writing.path_runFile 0 path _) paths
  · intro path member input readable
    refine ⟨writing.resultOf path input, ?_, rfl, rfl, rfl, rfl, ?_⟩
    · rw [← same, results]
      exact List.mem_map.mpr ⟨path, member, result_of_read plain readable⟩
    · rw [files]
      exact read_writeAll plain rfl apart member readable
  · intro place unclaimed content
    rw [files]
    apply Deed.get?_writeAll_iff overwrite
    intro deed due written
    obtain ⟨path, member, changed, leads⟩ := changed_of_mem_deeds plain rfl due written
    have reported : (writing.runFile 0 path { files := tree }).1 ∈ predicted.results := by
      rw [← same, results]
      exact List.mem_map.mpr ⟨path, member, rfl⟩
    apply unclaimed _ reported changed
    rw [path_runFile]
    exact leads
  · rw [files]
    exact Deed.sameShape_writeAll overwrite

/-- Answers a greeting and leaves every other text alone. -/
def answer : Runner where
  process text :=
    if text = bytes "hi" then (bytes "hi!", { total := 1, perRule := [(bytes "hi", 1)] })
    else (text, {})
  mode := .write

/-- A greeting, a greeting behind a link, and another text. -/
def desk : Files.Node :=
  .folder [(bytes "a", .file (bytes "hi")), (bytes "b", .file (bytes "yo")),
    (bytes "d", .folder [(bytes "e", .file (bytes "hi"))]), (bytes "l", .link (bytes "d/e"))]

/-- Paths to the files of the desk, to a folder and to nothing. -/
def deskPaths : List Bytes :=
  [bytes "a", bytes "gone", bytes "l", bytes "d", bytes "b"]

/-- The jobs for the desk, the last one first. -/
def deskJobs : List Job :=
  [⟨4, bytes "b", 7⟩, ⟨3, bytes "d", 7⟩, ⟨2, bytes "l", 8⟩, ⟨1, bytes "gone", 8⟩, ⟨0, bytes "a", 9⟩]

theorem dryRun_predicts_desk :
    (deskPaths.Pairwise fun path other => ¬ Files.SameFile desk path other) ∧
      let predicted := Runner.runJobs { answer with mode := .dryRun } none deskPaths
        (jobsInOrder (fun _ => 5) deskPaths) { files := desk }
      let actual := answer.runJobs none deskPaths deskJobs predicted.workspace
      actual.results = predicted.results ∧
        predicted.results.map (·.changed) = [true, false, true, false, false] ∧
        Files.read predicted.workspace.files (bytes "d/e") = .ok (bytes "hi") ∧
        Files.read actual.workspace.files (bytes "d/e") = .ok (bytes "hi!") ∧
        Files.read actual.workspace.files (bytes "b") = .ok (bytes "yo") ∧
        (Totals.ofResults actual.results).stats =
          { total := 2, perRule := [(bytes "hi", 2)] } := by
  have apart : deskPaths.Pairwise fun path other => ¬ Files.SameFile desk path other := by
    decide
  have all : ((jobsInOrder (fun _ => 5) deskPaths).map fun job => (job.path, job.index)).Perm
      deskPaths.zipIdx := by
    decide
  have allLater : (deskJobs.map fun job => (job.path, job.index)).Perm deskPaths.zipIdx := by
    decide
  obtain ⟨-, -, same, -⟩ := dryRun_predicts answer none apart all allLater
  exact ⟨apart, same, rfl, rfl, rfl, rfl, rfl⟩

end Predicted

end Runner

end Stencil
