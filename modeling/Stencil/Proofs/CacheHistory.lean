import Stencil.Proofs.FileReplacement
import Stencil.Proofs.Hex
import Stencil.Run.Basic

/-!
# What a cache remembers

Files are run with different rules while they are edited from outside, and the
runs share one cache.  At every point of such a history the cache has an entry for
a path exactly when the last run that went through on that path was not undone by
forgetting it: the entry names the rules of that run and the content it left.  So a
file is skipped exactly when it still has the content that the same rules left.

Writes may fail at any time, and a file may then hold a part of the new text.  Such a
run counts as an edit of the file and not as one that went through.
-/

namespace Stencil

namespace Cache

theorem get?_forget (cache : Cache) (path other : Bytes) :
    (cache.forget path).entries.get? other =
      if other = path then none else cache.entries.get? other := by
  unfold forget
  split
  · exact Keyed.get?_erase _ _ _
  · next absent =>
      split
      · next same => simpa [same] using absent
      · rfl

theorem maxAge_forget (cache : Cache) (path : Bytes) :
    (cache.forget path).maxAge = cache.maxAge := by
  unfold forget
  split <;> rfl

end Cache

namespace Runner

/-- What a run of one file can do when files are written. -/
inductive Runs (runner : Runner) (now : Nat) (path : Bytes) (workspace : Workspace) :
    Result → Workspace → Prop where
  /-- It fails and remembers nothing. -/
  | failed {result : Result} {files : Files.Node} (failure : result.failure ≠ none)
      (unknown : result.cached = false)
      (overwrites : Files.Overwrites path workspace.files files) :
      Runs runner now path workspace result { workspace with files }
  /-- It skips a file that the cache knows, and changes nothing. -/
  | skipped {result : Result} {input : Bytes} (failure : result.failure = none)
      (known : result.cached = true)
      (readable : Files.read workspace.files path = .ok input)
      (fresh : runner.isFresh workspace now path input = true) :
      Runs runner now path workspace result workspace
  /-- It leaves what the rules make of the file, and remembers that. -/
  | processed {result : Result} {input : Bytes} {files : Files.Node}
      (failure : result.failure = none) (unknown : result.cached = false)
      (readable : Files.read workspace.files path = .ok input)
      (stale : runner.isFresh workspace now path input = false)
      (left : Files.read files path = .ok (runner.process input).1)
      (overwrites : Files.Overwrites path workspace.files files) :
      Runs runner now path workspace result
        { workspace with
          files
          cache := workspace.cache.map fun cache =>
            cache.record now path (runner.process input).1 runner.digest }

theorem store_cases (runner : Runner) (now : Nat) (result : Result) {workspace : Workspace}
    (readable : Files.read workspace.files result.path = .ok result.input) :
    (∃ failure files, runner.store now result workspace =
          ({ result with failure := some failure }, { workspace with files }) ∧
        Files.Overwrites result.path workspace.files files) ∨
      ∃ files, runner.store now result workspace =
          (result,
            { workspace with
              files
              cache := workspace.cache.map fun cache =>
                cache.record now result.path result.output runner.digest }) ∧
        Files.read files result.path = .ok result.output ∧
        Files.Overwrites result.path workspace.files files := by
  unfold store
  by_cases same : result.output = result.input
  · rw [if_pos same]
    exact .inr ⟨workspace.files, rfl, by rw [same, readable], .inl rfl⟩
  · rw [if_neg same]
    obtain ⟨files, failure, refused, overwrites⟩ | ⟨files, done, -, written⟩ :=
      Files.attempt_cases (workspace.faults result.path) result.output readable
    · rw [refused]
      exact .inl ⟨_, files, rfl, overwrites⟩
    · rw [done]
      exact .inr ⟨files, rfl, Files.read_write readable written,
        .inr ⟨_, _, readable, written⟩⟩

theorem runs_runFile {runner : Runner} (writes : runner.mode = .write) (now : Nat) (path : Bytes)
    (workspace : Workspace) :
    Runs runner now path workspace (runner.runFile now path workspace).1
      (runner.runFile now path workspace).2 := by
  unfold runFile
  cases Files.status workspace.files path with
  | error failure => exact .failed (Option.some_ne_none _) rfl (.inl rfl)
  | ok node =>
      dsimp only
      cases readable : Files.read workspace.files path with
      | error failure => exact .failed (Option.some_ne_none _) rfl (.inl rfl)
      | ok input =>
          dsimp only
          cases fresh : runner.isFresh workspace now path input with
          | true => exact .skipped rfl rfl readable fresh
          | false =>
              rw [if_neg Bool.false_ne_true, if_pos writes]
              obtain ⟨failure, files, refused, overwrites⟩ | ⟨files, stored, left, overwrites⟩ :=
                store_cases runner now (runner.resultOf path input) readable
              · rw [refused]
                exact .failed (Option.some_ne_none _) rfl overwrites
              · rw [stored]
                exact .processed rfl rfl readable fresh left overwrites

theorem runFile_of_fresh {runner : Runner} {now : Nat} {path input : Bytes}
    {workspace : Workspace} (readable : Files.read workspace.files path = .ok input)
    (fresh : runner.isFresh workspace now path input = true) :
    runner.runFile now path workspace =
      ({ path, input, output := input, cached := true }, workspace) := by
  simp [runFile, Files.status_of_read readable, readable, fresh]

end Runner

namespace Workspace

/-- Something that happens to the files or to the cache. -/
inductive Event where
  /-- The files are changed from outside. -/
  | edit (files : Files.Node)
  /-- From now on other writes fail. -/
  | disk (faults : Bytes → Option Files.Fault)
  | forget (path : Bytes)
  | clear
  | run (runner : Runner) (now : Nat) (path : Bytes)

/-- What an event makes of a workspace. -/
def after (workspace : Workspace) : Event → Workspace
  | .edit files => { workspace with files }
  | .disk faults => { workspace with faults }
  | .forget path => { workspace with cache := workspace.cache.map (·.forget path) }
  | .clear => { workspace with cache := workspace.cache.map (·.clear) }
  | .run runner now path => (runner.runFile now path workspace).2

theorem after_run (workspace : Workspace) (runner : Runner) (now : Nat) (path : Bytes) :
    workspace.after (.run runner now path) = (runner.runFile now path workspace).2 :=
  rfl

/-- What a history makes of a workspace.  The latest event comes first. -/
def afterAll (start : Workspace) : List Event → Workspace
  | [] => start
  | event :: earlier => (start.afterAll earlier).after event

/-- A run goes through: it neither fails nor skips the file. -/
def GoesThrough (workspace : Workspace) (runner : Runner) (now : Nat) (path : Bytes) : Prop :=
  (runner.runFile now path workspace).1.failure = none ∧
    (runner.runFile now path workspace).1.cached = false

/-- An event after which an earlier run of a path is no longer the last one that
counts. -/
def Ends (workspace : Workspace) (path : Bytes) : Event → Prop
  | .edit _ | .disk _ => False
  | .forget other => other = path
  | .clear => True
  | .run runner now other => other = path ∧ workspace.GoesThrough runner now path

/-- The last run that went through on a path, if nothing was forgotten since: its
runner, the content it found and the content it left. -/
inductive LastRun (start : Workspace) (path : Bytes) :
    List Event → Runner → Bytes → Bytes → Prop where
  | here {earlier : List Event} {runner : Runner} {now : Nat} {found left : Bytes}
      (through : (start.afterAll earlier).GoesThrough runner now path)
      (before : Files.read (start.afterAll earlier).files path = .ok found)
      (behind : Files.read (start.afterAll (.run runner now path :: earlier)).files path =
        .ok left) :
      LastRun start path (.run runner now path :: earlier) runner found left
  | later {earlier : List Event} {event : Event} {runner : Runner} {found left : Bytes}
      (last : LastRun start path earlier runner found left)
      (goesOn : ¬ (start.afterAll earlier).Ends path event) :
      LastRun start path (event :: earlier) runner found left

/-- What the cache remembers about a path. -/
def recorded? (workspace : Workspace) (path : Bytes) : Option Cache.Entry :=
  workspace.cache.bind (·.entries.get? path)

/-- There is a cache, and its entries do not expire. -/
def Ageless (workspace : Workspace) : Prop :=
  ∃ cache, workspace.cache = some cache ∧ cache.maxAge = 0

section Step

variable {workspace : Workspace} {runner : Runner} {now : Nat} {path : Bytes}

/-- A run that fails or skips the file leaves the cache as it is. -/
theorem cache_after_run_of_not_goesThrough (writes : runner.mode = .write)
    (halted : ¬ workspace.GoesThrough runner now path) :
    (workspace.after (.run runner now path)).cache = workspace.cache := by
  have runs := runner.runs_runFile writes now path workspace
  unfold GoesThrough at halted
  rw [after_run]
  generalize runner.runFile now path workspace = outcome at runs halted ⊢
  obtain ⟨result, behind⟩ := outcome
  cases runs with
  | failed failure unknown overwrites => rfl
  | skipped failure known readable fresh => rfl
  | processed failure unknown readable stale left overwrites =>
      exact absurd ⟨failure, unknown⟩ halted

theorem GoesThrough.effect (through : workspace.GoesThrough runner now path)
    (writes : runner.mode = .write) :
    ∃ found, Files.read workspace.files path = .ok found ∧
      Files.read (workspace.after (.run runner now path)).files path =
        .ok (runner.process found).1 ∧
      (workspace.after (.run runner now path)).cache =
        workspace.cache.map fun cache =>
          cache.record now path (runner.process found).1 runner.digest := by
  have runs := runner.runs_runFile writes now path workspace
  unfold GoesThrough at through
  rw [after_run]
  generalize runner.runFile now path workspace = outcome at runs through ⊢
  obtain ⟨result, behind⟩ := outcome
  obtain ⟨succeeded, uncached⟩ := through
  cases runs with
  | failed failure unknown overwrites => exact absurd succeeded failure
  | skipped failure known readable fresh =>
      rw [known] at uncached
      cases uncached
  | processed failure unknown readable stale left overwrites => exact ⟨_, readable, left, rfl⟩

theorem GoesThrough.remembers (through : workspace.GoesThrough runner now path)
    (writes : runner.mode = .write) (ageless : workspace.Ageless) :
    ∃ found, Files.read workspace.files path = .ok found ∧
      Files.read (workspace.after (.run runner now path)).files path =
        .ok (runner.process found).1 ∧
      (workspace.after (.run runner now path)).recorded? path =
        some ⟨contentHash (runner.process found).1, runner.digest, now⟩ := by
  obtain ⟨found, before, behind, cache⟩ := through.effect writes
  obtain ⟨shared, present, -⟩ := ageless
  refine ⟨found, before, behind, ?_⟩
  rw [recorded?, cache, present]
  exact Keyed.get?_put_self _ _ _

/-- The event is no run, or it is one that writes files. -/
def Event.Writes : Event → Prop
  | .run runner _ _ => runner.mode = .write
  | _ => True

theorem recorded?_after_of_not_ends {event : Event} (writes : event.Writes)
    (goesOn : ¬ workspace.Ends path event) :
    (workspace.after event).recorded? path = workspace.recorded? path := by
  cases event with
  | edit files => rfl
  | disk faults => rfl
  | forget other =>
      have differ : path ≠ other := fun same => goesOn same.symm
      unfold recorded? after
      cases workspace.cache with
      | none => rfl
      | some cache =>
          simp only [Option.map_some, Option.bind_some]
          rw [Cache.get?_forget, if_neg differ]
  | clear => exact absurd trivial goesOn
  | run runner now other =>
      by_cases through : workspace.GoesThrough runner now other
      · obtain ⟨found, -, -, cache⟩ := through.effect writes
        have differ : path ≠ other := by
          rintro rfl
          exact goesOn ⟨rfl, through⟩
        rw [recorded?, cache, recorded?]
        cases workspace.cache with
        | none => rfl
        | some cache => exact Keyed.get?_put_of_ne differ _ _
      · rw [recorded?, cache_after_run_of_not_goesThrough writes through, recorded?]

theorem Ageless.after {event : Event} (ageless : workspace.Ageless) (writes : event.Writes) :
    (workspace.after event).Ageless := by
  obtain ⟨cache, shared, age⟩ := ageless
  cases event with
  | edit files => exact ⟨cache, shared, age⟩
  | disk faults => exact ⟨cache, shared, age⟩
  | forget other =>
      refine ⟨cache.forget other, by rw [Workspace.after, shared]; rfl, ?_⟩
      rw [Cache.maxAge_forget, age]
  | clear => exact ⟨cache.clear, by rw [Workspace.after, shared]; rfl, age⟩
  | run runner now other =>
      by_cases through : workspace.GoesThrough runner now other
      · obtain ⟨found, -, -, remembered⟩ := through.effect writes
        rw [shared] at remembered
        exact ⟨_, remembered, age⟩
      · exact ⟨cache, (cache_after_run_of_not_goesThrough writes through).trans shared, age⟩

end Step

theorem recorded?_after_forget (workspace : Workspace) (path : Bytes) :
    (workspace.after (.forget path)).recorded? path = none := by
  unfold recorded? after
  cases workspace.cache with
  | none => rfl
  | some cache =>
      simp only [Option.map_some, Option.bind_some]
      rw [Cache.get?_forget, if_pos rfl]

theorem recorded?_after_clear (workspace : Workspace) (path : Bytes) :
    (workspace.after .clear).recorded? path = none := by
  unfold recorded? after
  cases workspace.cache <;> rfl

section History

variable {start : Workspace} {history : List Event} {path : Bytes}

theorem Ageless.afterAll (ageless : start.Ageless) (writes : ∀ event ∈ history, event.Writes) :
    (start.afterAll history).Ageless := by
  induction history with
  | nil => exact ageless
  | cons event earlier ih =>
      rw [List.forall_mem_cons] at writes
      exact (ih writes.2).after writes.1

/-- Every entry was made by the last run of its path. -/
theorem exists_lastRun (ageless : start.Ageless) (empty : ∀ path, start.recorded? path = none)
    (writes : ∀ event ∈ history, event.Writes) {entry : Cache.Entry}
    (remembered : (start.afterAll history).recorded? path = some entry) :
    ∃ runner found left, LastRun start path history runner found left ∧
      entry.hash = contentHash left ∧ entry.digest = runner.digest := by
  induction history with
  | nil =>
      rw [afterAll, empty] at remembered
      cases remembered
  | cons event earlier ih =>
      rw [List.forall_mem_cons] at writes
      -- an event that ends the last run takes its entry away, unless it is the new last run
      by_cases ends : (start.afterAll earlier).Ends path event
      · cases event with
        | edit files => exact ends.elim
        | disk faults => exact ends.elim
        | forget other =>
            obtain rfl : other = path := ends
            rw [afterAll, recorded?_after_forget] at remembered
            cases remembered
        | clear =>
            rw [afterAll, recorded?_after_clear] at remembered
            cases remembered
        | run runner now other =>
            obtain ⟨rfl, through⟩ := ends
            obtain ⟨found, before, behind, made⟩ :=
              through.remembers writes.1 (ageless.afterAll writes.2)
            obtain rfl := Option.some.inj (made.symm.trans remembered)
            exact ⟨runner, found, _, .here through before behind, rfl, rfl⟩
      · rw [afterAll, recorded?_after_of_not_ends writes.1 ends] at remembered
        obtain ⟨runner, found, left, last, made⟩ := ih writes.2 remembered
        exact ⟨runner, found, left, .later last ends, made⟩

/-- The last run of a path made the entry. -/
theorem LastRun.recorded {runner : Runner} {found left : Bytes}
    (last : LastRun start path history runner found left) (ageless : start.Ageless)
    (writes : ∀ event ∈ history, event.Writes) :
    left = (runner.process found).1 ∧
      ∃ entry, (start.afterAll history).recorded? path = some entry ∧
        entry.hash = contentHash left ∧ entry.digest = runner.digest := by
  induction last with
  | @here earlier runner now found left through before behind =>
      rw [List.forall_mem_cons] at writes
      obtain ⟨input, readable, written, made⟩ :=
        through.remembers writes.1 (ageless.afterAll writes.2)
      obtain rfl : found = input := Except.ok.inj (before.symm.trans readable)
      obtain rfl : left = (runner.process found).1 := Except.ok.inj (behind.symm.trans written)
      exact ⟨rfl, _, made, rfl, rfl⟩
  | @later earlier event runner found left last goesOn ih =>
      rw [List.forall_mem_cons] at writes
      rw [afterAll, recorded?_after_of_not_ends writes.1 goesOn]
      exact ih writes.2

end History

end Workspace

namespace Runner

open Workspace

theorem isFresh_iff {runner : Runner} {workspace : Workspace} {now : Nat}
    {path content : Bytes} (writes : runner.mode = .write) (ageless : workspace.Ageless) :
    runner.isFresh workspace now path content = true ↔
      ∃ entry, workspace.recorded? path = some entry ∧ entry.digest = runner.digest ∧
        entry.hash = contentHash content := by
  obtain ⟨cache, shared, age⟩ := ageless
  cases known : cache.entries.get? path with
  | none => simp [isFresh, Workspace.recorded?, Cache.fresh, shared, known]
  | some entry =>
      simp [isFresh, Workspace.recorded?, Cache.fresh, Cache.expired, shared, known, writes, age]

theorem cached_iff_isFresh {runner : Runner} (writes : runner.mode = .write) (now : Nat)
    (path : Bytes) (workspace : Workspace) :
    (runner.runFile now path workspace).1.cached = true ↔
      ∃ content, Files.read workspace.files path = .ok content ∧
        runner.isFresh workspace now path content = true := by
  constructor
  · intro cached
    have runs := runner.runs_runFile writes now path workspace
    generalize runner.runFile now path workspace = outcome at runs cached
    obtain ⟨result, behind⟩ := outcome
    cases runs with
    | failed failure unknown overwrites => exact Bool.noConfusion (cached.symm.trans unknown)
    | skipped failure known readable fresh => exact ⟨_, readable, fresh⟩
    | processed failure unknown readable stale left overwrites =>
        exact Bool.noConfusion (cached.symm.trans unknown)
  · rintro ⟨content, readable, fresh⟩
    rw [runFile_of_fresh readable fresh]

section Skipping

variable {start : Workspace} {cache : Cache} {history : List Event} {runner : Runner}

/-- Whatever happened to the files and to an ageless cache that was empty at first, and
whichever writes failed: a file is skipped exactly when the last run that went through
on its path, if nothing was forgotten since, had the same digest and left content of the
same hash.  A skipped file and the cache are not touched, and the file holds what that
run made of it, unless the hash function has a collision there.  A failed run, also one
that has written a part of the text, leaves the cache as it is. -/
theorem cached_iff_lastRun (shared : start.cache = some cache) (empty : cache.entries = [])
    (age : cache.maxAge = 0) (writes : ∀ event ∈ history, event.Writes)
    (writing : runner.mode = .write) (now : Nat) (path : Bytes) :
    ((runner.runFile now path (start.afterAll history)).1.cached = true ↔
      ∃ previous found left content, LastRun start path history previous found left ∧
        previous.digest = runner.digest ∧
        Files.read (start.afterAll history).files path = .ok content ∧
        Sha256.digest left = Sha256.digest content) ∧
    ((runner.runFile now path (start.afterAll history)).1.cached = true →
      (runner.runFile now path (start.afterAll history)).2 = start.afterAll history ∧
      ∀ previous found left content, LastRun start path history previous found left →
        Files.read (start.afterAll history).files path = .ok content →
        previous.digest = runner.digest ∧
          (¬ Sha256.Collision left content → content = (previous.process found).1)) ∧
    ((runner.runFile now path (start.afterAll history)).1.failure ≠ none →
      (runner.runFile now path (start.afterAll history)).2.cache =
        (start.afterAll history).cache) := by
  have ageless : start.Ageless := ⟨cache, shared, age⟩
  have unknown : ∀ path, start.recorded? path = none := fun path => by
    simp [Workspace.recorded?, shared, empty, Keyed.get?]
  refine ⟨?_, ?_, ?_⟩
  · rw [cached_iff_isFresh writing]
    constructor
    · rintro ⟨content, readable, fresh⟩
      obtain ⟨entry, remembered, rules, hash⟩ :=
        (isFresh_iff writing (ageless.afterAll writes)).mp fresh
      obtain ⟨previous, found, left, last, leaves, ran⟩ :=
        exists_lastRun ageless unknown writes remembered
      exact ⟨previous, found, left, content, last, ran.symm.trans rules, readable,
        Sha256.hexDigest_eq_iff.mp (leaves.symm.trans hash)⟩
    · rintro ⟨previous, found, left, content, last, same, readable, hash⟩
      obtain ⟨-, entry, remembered, leaves, ran⟩ := last.recorded ageless writes
      exact ⟨content, readable, (isFresh_iff writing (ageless.afterAll writes)).mpr
        ⟨entry, remembered, ran.trans same, leaves.trans (Sha256.hexDigest_eq_iff.mpr hash)⟩⟩
  · intro cached
    obtain ⟨held, holds, fresh⟩ := (cached_iff_isFresh writing now path _).mp cached
    refine ⟨by rw [runFile_of_fresh holds fresh], ?_⟩
    · intro previous found left content last readable
      obtain rfl : content = held := Except.ok.inj (readable.symm.trans holds)
      obtain ⟨entry, remembered, rules, hash⟩ :=
        (isFresh_iff writing (ageless.afterAll writes)).mp fresh
      obtain ⟨made, known, present, leaves, ran⟩ := last.recorded ageless writes
      obtain rfl : entry = known := Option.some.inj (remembered.symm.trans present)
      refine ⟨ran.symm.trans rules, fun apart => ?_⟩
      rw [← made]
      exact (Sha256.eq_of_digest_eq apart
        (Sha256.hexDigest_eq_iff.mp (leaves.symm.trans hash))).symm
  · intro failed
    exact cache_after_run_of_not_goesThrough writing fun through => failed through.1

end Skipping

/-- Adds an exclamation mark. -/
def exclaim : Runner :=
  { process := fun text => (text ++ bytes "!", {}), mode := .write, digest := bytes "mark" }

/-- A folder with the file `a`. -/
def holding (content : String) : Files.Node :=
  .folder [(bytes "a", .file (bytes content))]

/-- Adds a question mark. -/
def ask : Runner :=
  { process := fun text => (text ++ bytes "?", {}), mode := .write, digest := bytes "query" }

/-- The file `a` is processed and changed, and then the disk is full. -/
def jammed : List Event :=
  [.disk fun _ => some ⟨.filling 1, .noSpace⟩, .edit (holding "bye"), .forget (bytes "b"),
    .run exclaim 0 (bytes "a"), .edit (holding "hi")]

/-- Other rules fail half way, and then the content is restored. -/
theorem cached_iff_lastRun_restored :
    let start : Workspace := { files := .folder [], cache := some { folder := [] } }
    let failed := ask.runFile 3 (bytes "a") (start.afterAll jammed)
    failed.1.failure ≠ none ∧ Files.read failed.2.files (bytes "a") = .ok (bytes "b") ∧
      failed.2.cache = (start.afterAll jammed).cache ∧
      (exclaim.runFile 5 (bytes "a") (start.afterAll
        (.edit (holding "hi!") :: .run ask 3 (bytes "a") :: jammed))).1.cached = true := by
  intro start failed
  have fails : failed.1.failure ≠ none := Option.some_ne_none _
  have writes : ∀ event ∈ jammed, event.Writes := by simp [jammed, Event.Writes, exclaim]
  have through : GoesThrough { start with files := holding "hi" } exclaim 0 (bytes "a") :=
    ⟨rfl, rfl⟩
  have differ : ¬ bytes "b" = bytes "a" := by decide
  have last : LastRun start (bytes "a") jammed exclaim (bytes "hi") (bytes "hi!") :=
    .later (.later (.later (.here through rfl rfl) differ) id) id
  refine ⟨fails, rfl, (cached_iff_lastRun rfl rfl rfl writes rfl 3 (bytes "a")).2.2 fails, ?_⟩
  refine (cached_iff_lastRun rfl rfl rfl ?_ rfl 5 (bytes "a")).1.mpr
    ⟨exclaim, bytes "hi", bytes "hi!", bytes "hi!",
      .later (.later last fun ends => fails ends.2.1) id, rfl, rfl, rfl⟩
  simpa [Event.Writes, ask] using writes

end Runner

end Stencil
