import Stencil.Cache.Basic
import Stencil.Files.Access
import Stencil.Run.Result

/-!
# Running rules over files

A runner applies one set of rules to files.  Every file is read and processed on
its own; what happens to the new text depends on the mode.  Failures of single
files are part of their results and do not stop the run.

A file that cannot be written whole is not remembered.  It may hold a part of the new
text then.
-/

namespace Stencil

/-- What a runner needs to know. -/
structure Runner where
  /-- Processes the text of a file. -/
  process : Bytes → Bytes × Stats
  mode : Mode
  /-- Identifies the rules in a cache. -/
  digest : Bytes := []

/-- What a run reads and changes. -/
structure Workspace where
  files : Files.Node
  /-- Consulted when files are written. -/
  cache : Option Cache := none
  /-- The writes that fail, by path. -/
  faults : Bytes → Option Files.Fault := fun _ => none

/-- How a run is ended from outside. -/
structure Interruption where
  cause : Cause
  /-- The number of files that are finished by then. -/
  after : Nat := 0
  deriving DecidableEq

/-- What a run leaves behind. -/
structure Outcome where
  results : List Result := []
  /-- The texts that were printed. -/
  printed : List Bytes := []
  workspace : Workspace
  /-- Why the run as a whole failed. -/
  failure : Option Failure := none

namespace Runner

/-- A runner, if everything it needs is there: something that processes texts, a
place to print to when texts are printed, and a digest when there is a cache. -/
def make (process : Option (Bytes → Bytes × Stats)) (mode : Mode) (canPrint hasCache : Bool)
    (digest : Bytes) : Except Failure Runner :=
  match process with
  | none => .error (.ofText (bytes "runner: rewriter is required"))
  | some process =>
      if mode = .print ∧ !canPrint then
        .error (.ofText (bytes "runner: print mode needs an output writer"))
      else if hasCache ∧ digest = [] then
        .error (.ofText (bytes "runner: cache needs a rule set digest"))
      else
        .ok { process, mode, digest }

/-- Whether the cache knows that the rules left this content in a file. -/
def isFresh (runner : Runner) (workspace : Workspace) (now : Nat) (path content : Bytes) : Bool :=
  runner.mode == .write &&
    workspace.cache.any fun cache => cache.fresh now path content runner.digest

/-- Writes a new text to its file, and remembers it if that succeeds. -/
def store (runner : Runner) (now : Nat) (result : Result) (workspace : Workspace) :
    Result × Workspace :=
  let written :=
    if result.output = result.input then (workspace.files, none)
    else Files.attempt (workspace.faults result.path) result.path result.output workspace.files
  match written with
  | (files, some failure) =>
      ({ result with
          failure := some (.inside (bytes "error writing " ++ result.path) failure) },
        { workspace with files })
  | (files, none) =>
      (result,
        { workspace with
          files
          cache := workspace.cache.map fun cache =>
            cache.record now result.path result.output runner.digest })

/-- The result for a text that was read from a file. -/
def resultOf (runner : Runner) (path input : Bytes) : Result :=
  let processed := runner.process input
  { path, input, output := processed.1, stats := processed.2 }

/-- Processes one file. -/
def runFile (runner : Runner) (now : Nat) (path : Bytes) (workspace : Workspace) :
    Result × Workspace :=
  match Files.status workspace.files path with
  | .error failure =>
      ({ path, failure := some (.inside (bytes "error accessing " ++ path) failure) }, workspace)
  | .ok _ =>
      match Files.read workspace.files path with
      | .error failure =>
          ({ path, failure := some (.inside (bytes "error reading " ++ path) failure) }, workspace)
      | .ok input =>
          if runner.isFresh workspace now path input then
            ({ path, input, output := input, cached := true }, workspace)
          else if runner.mode = .write then
            runner.store now (runner.resultOf path input) workspace
          else
            (runner.resultOf path input, workspace)

/-- Processes files one after the other.  The clock gives the time at which each of them
takes its turn. -/
def runFiles (runner : Runner) :
    (clock : Nat → Nat) → List Bytes → Workspace → List Result × Workspace
  | _, [], workspace => ([], workspace)
  | clock, path :: paths, workspace =>
      let first := runner.runFile (clock 0) path workspace
      let others := runFiles runner (fun turn => clock (turn + 1)) paths first.2
      (first.1 :: others.1, others.2)

/-- The texts to print: those of the files that did not fail. -/
def printable (runner : Runner) (results : List Result) : List Bytes :=
  if runner.mode = .print then
    (results.filter (·.failure.isNone)).map (·.output)
  else
    []

/-- Processes files up to an interruption.  The results of the other files are
empty, and nothing is printed. -/
def runUntil (runner : Runner) (interruption : Interruption) (clock : Nat → Nat)
    (paths : List Bytes) (workspace : Workspace) : Outcome :=
  let ran := runner.runFiles clock (paths.take interruption.after) workspace
  { results := ran.1 ++ (paths.drop interruption.after).map fun _ => {}
    workspace := ran.2
    failure := some (.because interruption.cause) }

/-- Prints the texts of files that were processed.  `capacity` is the number of texts
the printer takes before it fails. -/
def finish (runner : Runner) (capacity : Option Nat) (ran : List Result × Workspace) : Outcome :=
  let texts := runner.printable ran.1
  let taken := capacity.getD texts.length
  { results := ran.1
    printed := texts.take taken
    workspace := ran.2
    failure :=
      if texts.length ≤ taken then none
      else some (.inside (bytes "failed to write output") (.ofText (bytes "writer failed"))) }

/-- Processes files and prints their texts. -/
def run (runner : Runner) (interruption : Option Interruption) (capacity : Option Nat)
    (clock : Nat → Nat) (paths : List Bytes) (workspace : Workspace) : Outcome :=
  match interruption with
  | some interruption => runner.runUntil interruption clock paths workspace
  | none => runner.finish capacity (runner.runFiles clock paths workspace)

/-- Processes texts as if they were one. -/
def runTexts (runner : Runner) (texts : List Bytes) : Bytes × Stats :=
  runner.process texts.flatten

end Runner

end Stencil
