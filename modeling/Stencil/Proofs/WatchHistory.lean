import Stencil.Proofs.RunFiles
import Stencil.Watch

/-!
# What a watcher leaves alone

A watcher processes files by path while the files are changed from outside.  What
it remembers of a path is always the hash of what its last successful run of the
rules left there (`LastLeft`).  So it skips the file as long as nothing else
changes the content (`Quiet`), however often it is called and whatever the rules
would make of their own output.

It remembers paths, not files.  A run under another path that leads to the same
file counts as a change like any other.  A run that fails is not remembered, though it
may leave a part of its output in the file.
-/

namespace Stencil

namespace Runner

variable {runner : Runner} {workspace : Workspace} {path input : Bytes}

/-- Without a cache a file that can be read is processed: either it cannot be
written whole and this is reported, or it holds the output afterwards. -/
theorem runFile_uncached (writes : runner.mode = .write) (uncached : workspace.cache = none)
    (now : Nat) (readable : Files.read workspace.files path = .ok input) :
    (∃ failure files, runner.runFile now path workspace =
        ({ runner.resultOf path input with failure := some failure },
          { workspace with files })) ∨
      ∃ files, runner.runFile now path workspace =
          (runner.resultOf path input, { workspace with files }) ∧
        Files.read files path = .ok (runner.process input).1 := by
  have stale : runner.isFresh workspace now path input = false := by
    simp [isFresh, uncached]
  have stored : runner.runFile now path workspace =
      runner.store now (runner.resultOf path input) workspace := by
    simp [runFile, Files.status_of_read readable, readable, stale, writes]
  rw [stored]
  obtain ⟨failure, files, refused, -⟩ | ⟨files, kept, left, -⟩ :=
    store_cases runner now (runner.resultOf path input) readable
  · exact .inl ⟨failure, files, refused⟩
  · exact .inr ⟨files, by rw [kept, uncached]; rfl, left⟩

end Runner

namespace Watcher

/-- A watcher and the files it works on. -/
structure State where
  watcher : Watcher
  workspace : Workspace

/-- Something that happens while a watcher is at work. -/
inductive Step where
  /-- The files are changed from outside. -/
  | edit (files : Files.Node)
  /-- From now on other writes fail. -/
  | disk (faults : Bytes → Option Files.Fault)
  | process (now : Nat) (path : Bytes)

namespace State

/-- What a watcher does about a path. -/
def process (state : State) (now : Nat) (path : Bytes) : Watcher × Option Result × Workspace :=
  state.watcher.process now path state.workspace

/-- What a step makes of a state. -/
def after (state : State) : Step → State
  | .edit files => { state with workspace := { state.workspace with files } }
  | .disk faults => { state with workspace := { state.workspace with faults } }
  | .process now path => ⟨(state.process now path).1, (state.process now path).2.2⟩

/-- What a history makes of a state.  The latest step comes first. -/
def afterAll (start : State) : List Step → State
  | [] => start
  | step :: earlier => (start.afterAll earlier).after step

/-- What a path reads. -/
def content (state : State) (path : Bytes) : Except Failure Bytes :=
  Files.read state.workspace.files path

/-- The watcher runs the rules on a file, and the run does not fail. -/
def Succeeds (state : State) (now : Nat) (path : Bytes) : Prop :=
  ∃ result, (state.process now path).2.1 = some result ∧ result.failure = none

instance (state : State) (now : Nat) (path : Bytes) : Decidable (state.Succeeds now path) :=
  decidable_of_iff ((state.process now path).2.1.any (·.failure.isNone) = true) <| by
    cases reported : (state.process now path).2.1 <;> simp [Succeeds, reported]

/-- Files are written, and there is no cache. -/
structure Writing (state : State) : Prop where
  writes : state.watcher.runner.mode = .write
  uncached : state.workspace.cache = none

/-- A step that leaves the content of a file to the watcher's own calls for its path. -/
def Spares (state : State) (path : Bytes) : Step → Prop
  | .edit files => Files.read files path = state.content path
  | .disk _ => True
  | .process _ other => other = path ∨ ¬ Files.SameFile state.workspace.files other path

end State

/-- What the last successful run of the rules on a path left in the file. -/
inductive LastLeft (start : State) (path : Bytes) : List Step → Bytes → Prop where
  | here {earlier : List Step} {now : Nat} {left : Bytes}
      (succeeds : (start.afterAll earlier).Succeeds now path)
      (leaves : (start.afterAll (.process now path :: earlier)).content path = .ok left) :
      LastLeft start path (.process now path :: earlier) left
  | edited {earlier : List Step} {files : Files.Node} {left : Bytes}
      (last : LastLeft start path earlier left) :
      LastLeft start path (.edit files :: earlier) left
  | refitted {earlier : List Step} {faults : Bytes → Option Files.Fault} {left : Bytes}
      (last : LastLeft start path earlier left) :
      LastLeft start path (.disk faults :: earlier) left
  | later {earlier : List Step} {now : Nat} {other left : Bytes}
      (last : LastLeft start path earlier left)
      (goesOn : ¬ (other = path ∧ (start.afterAll earlier).Succeeds now path)) :
      LastLeft start path (.process now other :: earlier) left

/-- Since the rules last ran on a path without a failure, nothing but the
watcher's calls for this path could change what the file holds. -/
inductive Quiet (start : State) (path : Bytes) : List Step → Prop where
  | here {earlier : List Step} {now : Nat}
      (succeeds : (start.afterAll earlier).Succeeds now path) :
      Quiet start path (.process now path :: earlier)
  | later {earlier : List Step} {step : Step} (quiet : Quiet start path earlier)
      (spares : (start.afterAll earlier).Spares path step) : Quiet start path (step :: earlier)

namespace State

section Step

variable {state : State} {now : Nat} {path : Bytes}

/-- What a call for a path can do. -/
theorem process_cases (writing : state.Writing) (now : Nat) (path : Bytes) :
    -- the file is skipped, or the run fails: nothing is remembered
    (∃ files, ¬ state.Succeeds now path ∧ state.after (.process now path) =
        ⟨state.watcher, { state.workspace with files }⟩) ∨
      -- the rules run, and what they leave is remembered
      ∃ input files, state.content path = .ok input ∧ state.Succeeds now path ∧
        Files.read files path = .ok (state.watcher.runner.process input).1 ∧
        state.after (.process now path) =
          ⟨{ state.watcher with
              left := Keyed.put path
                (contentHash (state.watcher.runner.process input).1) state.watcher.left },
            { state.workspace with files }⟩ := by
  obtain ⟨watcher, workspace⟩ := state
  simp only [after, Succeeds, process, Watcher.process, content]
  cases readable : Files.read workspace.files path with
  | error failure => exact .inl ⟨workspace.files, by simp, rfl⟩
  | ok input =>
      dsimp only
      split
      · exact .inl ⟨workspace.files, by simp, rfl⟩
      · obtain ⟨failure, files, ran⟩ | ⟨files, ran, left⟩ :=
          Runner.runFile_uncached writing.writes writing.uncached now readable
        · rw [ran]
          exact .inl ⟨files, by simp, rfl⟩
        · rw [ran]
          exact .inr ⟨input, files, rfl, ⟨_, rfl, rfl⟩, left, rfl⟩

theorem watcher_after_of_not_succeeds (writing : state.Writing)
    (halted : ¬ state.Succeeds now path) :
    (state.after (.process now path)).watcher = state.watcher := by
  obtain ⟨files, -, effect⟩ | ⟨input, files, -, succeeds, -⟩ := process_cases writing now path
  · rw [effect]
  · exact absurd succeeds halted

/-- A successful run leaves the file with the content whose hash is remembered. -/
theorem Succeeds.effect (succeeds : state.Succeeds now path) (writing : state.Writing) :
    ∃ left, (state.after (.process now path)).content path = .ok left ∧
      (state.after (.process now path)).watcher.left =
        Keyed.put path (contentHash left) state.watcher.left := by
  obtain ⟨-, halted, -⟩ | ⟨input, files, -, -, holds, effect⟩ := process_cases writing now path
  · exact absurd succeeds halted
  · rw [effect]
    exact ⟨_, holds, rfl⟩

theorem Writing.after (writing : state.Writing) (step : Step) : (state.after step).Writing := by
  cases step with
  | edit files => exact ⟨writing.writes, writing.uncached⟩
  | disk faults => exact ⟨writing.writes, writing.uncached⟩
  | process now path =>
      obtain ⟨files, -, effect⟩ | ⟨input, files, -, -, -, effect⟩ := process_cases writing now path
      · rw [effect]
        exact ⟨writing.writes, writing.uncached⟩
      · rw [effect]
        exact ⟨writing.writes, writing.uncached⟩

/-- A file that still holds what was remembered of its path is skipped. -/
theorem process_of_known {content : Bytes} (holds : state.content path = .ok content)
    (known : state.watcher.left.get? path = some (contentHash content)) (now : Nat) :
    state.process now path = (state.watcher, none, state.workspace) := by
  unfold State.content at holds
  simp only [process, Watcher.process, holds, known, if_true]

theorem result_eq_none_iff {content : Bytes} (holds : state.content path = .ok content)
    (now : Nat) :
    (state.process now path).2.1 = none ↔
      state.watcher.left.get? path = some (contentHash content) := by
  constructor
  · intro skipped
    unfold State.content at holds
    simp only [process, Watcher.process, holds] at skipped
    split at skipped
    · next known => exact known
    · cases skipped
  · intro known
    rw [process_of_known holds known]

/-- A call for a path that leads elsewhere leaves a file as it is. -/
theorem content_after_of_apart {other kept : Bytes}
    (apart : ¬ Files.SameFile state.workspace.files other path)
    (holds : state.content path = .ok kept) (now : Nat) :
    (state.after (.process now other)).content path = .ok kept := by
  simp only [after, process, Watcher.process, content] at holds ⊢
  cases Files.read state.workspace.files other with
  | error failure => exact holds
  | ok input =>
      dsimp only
      split
      · exact holds
      · exact Runner.read_runFile_of_apart apart holds now

end Step

section History

variable {start : State} {history : List Step} {path : Bytes}

theorem Writing.afterAll (writing : start.Writing) (history : List Step) :
    (start.afterAll history).Writing := by
  induction history with
  | nil => exact writing
  | cons step earlier ih => exact ih.after step

/-- The last successful run is remembered. -/
theorem LastLeft.known {left : Bytes} (last : LastLeft start path history left)
    (writing : start.Writing) :
    (start.afterAll history).watcher.left.get? path = some (contentHash left) := by
  induction last with
  | @here earlier now left succeeds leaves =>
      obtain ⟨held, holds, remembered⟩ := succeeds.effect (writing.afterAll earlier)
      obtain rfl : left = held := Except.ok.inj (leaves.symm.trans holds)
      rw [State.afterAll, remembered]
      exact Keyed.get?_put_self _ _ _
  | edited last ih => exact ih
  | refitted last ih => exact ih
  | @later earlier now other left last goesOn ih =>
      by_cases succeeds : (start.afterAll earlier).Succeeds now other
      · have differ : path ≠ other := by
          rintro rfl
          exact goesOn ⟨rfl, succeeds⟩
        obtain ⟨held, -, remembered⟩ := succeeds.effect (writing.afterAll earlier)
        rw [State.afterAll, remembered, Keyed.get?_put_of_ne differ]
        exact ih
      · rw [State.afterAll, watcher_after_of_not_succeeds (writing.afterAll earlier) succeeds]
        exact ih

/-- Whatever is remembered was left by the last successful run. -/
theorem exists_lastLeft (fresh : start.watcher.left = []) (writing : start.Writing)
    {hash : Bytes} (known : (start.afterAll history).watcher.left.get? path = some hash) :
    ∃ left, LastLeft start path history left ∧ hash = contentHash left := by
  induction history with
  | nil =>
      rw [State.afterAll, fresh] at known
      cases known
  | cons step earlier ih =>
      cases step with
      | edit files =>
          obtain ⟨left, last, same⟩ := ih known
          exact ⟨left, .edited last, same⟩
      | disk faults =>
          obtain ⟨left, last, same⟩ := ih known
          exact ⟨left, .refitted last, same⟩
      | process now other =>
          by_cases succeeds : (start.afterAll earlier).Succeeds now other
          · obtain ⟨held, holds, remembered⟩ := succeeds.effect (writing.afterAll earlier)
            rw [State.afterAll, remembered] at known
            by_cases same : path = other
            · subst same
              rw [Keyed.get?_put_self] at known
              exact ⟨held, .here succeeds holds, (Option.some.inj known).symm⟩
            · rw [Keyed.get?_put_of_ne same] at known
              obtain ⟨left, last, made⟩ := ih known
              exact ⟨left, .later last fun ends => same ends.1.symm, made⟩
          · rw [State.afterAll,
              watcher_after_of_not_succeeds (writing.afterAll earlier) succeeds] at known
            obtain ⟨left, last, made⟩ := ih known
            refine ⟨left, .later last ?_, made⟩
            rintro ⟨rfl, goesThrough⟩
            exact succeeds goesThrough

/-- While nothing else changes a file, it holds what the last successful run left. -/
theorem Quiet.holds (quiet : Quiet start path history) (writing : start.Writing) :
    ∃ content, (start.afterAll history).content path = .ok content ∧
      (start.afterAll history).watcher.left.get? path = some (contentHash content) := by
  induction quiet with
  | @here earlier now succeeds =>
      obtain ⟨left, holds, remembered⟩ := succeeds.effect (writing.afterAll earlier)
      refine ⟨left, holds, ?_⟩
      rw [State.afterAll, remembered]
      exact Keyed.get?_put_self _ _ _
  | @later earlier step quiet spares ih =>
      obtain ⟨content, holds, known⟩ := ih
      cases step with
      | edit files => exact ⟨content, spares.trans holds, known⟩
      | disk faults => exact ⟨content, holds, known⟩
      | process now other =>
          by_cases same : other = path
          · -- the watcher finds the content it left, and skips the file
            subst same
            have skipped := process_of_known holds known now
            refine ⟨content, ?_, ?_⟩ <;> rw [State.afterAll, State.after, skipped]
            · exact holds
            · exact known
          · refine ⟨content, content_after_of_apart (spares.resolve_left same) holds now, ?_⟩
            by_cases succeeds : (start.afterAll earlier).Succeeds now other
            · obtain ⟨left, -, remembered⟩ := succeeds.effect (writing.afterAll earlier)
              rw [State.afterAll, remembered, Keyed.get?_put_of_ne (Ne.symm same)]
              exact known
            · rw [State.afterAll,
                watcher_after_of_not_succeeds (writing.afterAll earlier) succeeds]
              exact known

end History

end State

section Settling

open State

variable {start : State}

/-- Whatever happened before, and whatever the rules do: what is remembered of a path
is the hash of what its last successful run left; once a run was successful, every
later call for the path does nothing, until the content is changed from outside or
through another path that leads to the same file; and a file that can be read is
skipped only when it has the hash of what was left in it. -/
theorem process_settles (fresh : start.watcher.left = []) (writing : start.Writing)
    (history : List Step) (now : Nat) (path : Bytes) :
    (∀ hash, (start.afterAll history).watcher.left.get? path = some hash ↔
      ∃ left, LastLeft start path history left ∧ hash = contentHash left) ∧
    (Quiet start path history →
      (start.afterAll history).process now path =
        ((start.afterAll history).watcher, none, (start.afterAll history).workspace)) ∧
    (∀ content, (start.afterAll history).content path = .ok content →
      (((start.afterAll history).process now path).2.1 = none ↔
        ∃ left, LastLeft start path history left ∧
          Sha256.digest left = Sha256.digest content)) := by
  have remembered : ∀ hash, (start.afterAll history).watcher.left.get? path = some hash ↔
      ∃ left, LastLeft start path history left ∧ hash = contentHash left := by
    intro hash
    constructor
    · exact exists_lastLeft fresh writing
    · rintro ⟨left, last, rfl⟩
      exact LastLeft.known last writing
  refine ⟨remembered, ?_, ?_⟩
  · intro quiet
    obtain ⟨content, holds, known⟩ := Quiet.holds quiet writing
    exact process_of_known holds known now
  · intro content holds
    rw [result_eq_none_iff holds, remembered]
    apply exists_congr
    intro left
    apply and_congr_right
    intro last
    rw [contentHash, contentHash, Sha256.hexDigest_eq_iff]
    exact eq_comm

end Settling

/-- Writes `ping pong` for every `ping`. -/
def pingPong : Runner where
  process text :=
    match Engine.compile [{ pattern := bytes "ping", replacement := bytes "ping pong" }] {} with
    | .ok engine => engine.processStats text
    | .error _ => (text, {})
  mode := .write

/-- A folder with the file `a` and the link `b` to it. -/
def linked : State :=
  ⟨{ runner := pingPong },
    { files := .folder [(bytes "a", .file (bytes "ping")), (bytes "b", .link (bytes "a"))] }⟩

/-- The file `a` is processed and written anew from outside, and then the rules fail on it
half way. -/
def jammed : List Step :=
  [.process 2 (bytes "a"), .disk fun _ => some ⟨.filling 3, .noSpace⟩,
    .edit linked.workspace.files, .process 0 (bytes "a")]

/-- The watcher is called again, and a file is added from outside.  When the rules fail, what
is remembered is what they left before. -/
theorem process_settles_growing :
    (∃ files : Files.Node,
      files = .folder [(bytes "a", .file (bytes "ping pong")), (bytes "c", .file [])] ∧
      ∀ state, state = linked.afterAll
          [.edit files, .process 1 (bytes "a"), .process 0 (bytes "a")] →
        state.process 2 (bytes "a") = (state.watcher, none, state.workspace)) ∧
      (linked.afterAll jammed).content (bytes "a") = .ok (bytes "pin") ∧
      (linked.afterAll jammed).watcher.left.get? (bytes "a") =
        some (contentHash (bytes "ping pong")) := by
  have first : linked.Succeeds 0 (bytes "a") := by decide +kernel
  have holds : (linked.afterAll [.process 1 (bytes "a"), .process 0 (bytes "a")]).content
      (bytes "a") = .ok (bytes "ping pong") := by
    decide +kernel
  have leaves : (linked.afterAll [.process 0 (bytes "a")]).content (bytes "a") =
      .ok (bytes "ping pong") := by
    decide +kernel
  have fails : ¬ (linked.afterAll jammed.tail).Succeeds 2 (bytes "a") := by decide +kernel
  have part : (linked.afterAll jammed).content (bytes "a") = .ok (bytes "pin") := by
    decide +kernel
  refine ⟨⟨_, rfl, ?_⟩, part, ?_⟩
  · rintro _ rfl
    apply (process_settles rfl ⟨rfl, rfl⟩ _ 2 (bytes "a")).2.1
    exact .later (.later (.here first) (.inl rfl)) holds.symm
  · apply ((process_settles rfl ⟨rfl, rfl⟩ jammed 3 (bytes "a")).1 _).mpr
    exact ⟨bytes "ping pong", .later (.refitted (.edited (.here first leaves)))
      fun ends => fails ends.2, rfl⟩

/-- Nothing is changed from outside, yet the rules run on their own output: the file
is also called for under the name of a link to it. -/
theorem process_runs_again_through_link :
    linked.Succeeds 0 (bytes "a") ∧
      (linked.afterAll [.process 1 (bytes "b"), .process 0 (bytes "a")]).Succeeds 2 (bytes "a") ∧
      (linked.afterAll [.process 2 (bytes "a"), .process 1 (bytes "b"),
        .process 0 (bytes "a")]).content (bytes "a") = .ok (bytes "ping pong pong pong") := by
  refine ⟨?_, ?_, ?_⟩ <;> decide +kernel

end Watcher

end Stencil
