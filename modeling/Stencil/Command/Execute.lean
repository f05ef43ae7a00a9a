import Stencil.Cache.Store
import Stencil.Command.Line
import Stencil.Declaration
import Stencil.Report.Diff
import Stencil.Report.Summary
import Stencil.RuleFile.Codec
import Stencil.Watch

/-!
# Executing commands

A command reads the files and the input of a session and answers with what it
prints, the files it leaves, and its failure if it failed.
-/

namespace Stencil.Command

/-- What a command finds when it starts. -/
structure Session where
  files : Files.Node
  /-- The standard input. -/
  input : Bytes := []
  /-- Reports are coloured. -/
  color : Bool := false
  /-- The command is to end early. -/
  interruption : Option Interruption := none
  /-- The times at which files take their turn, in nanoseconds. -/
  clock : Nat → Nat := fun _ => 0
  /-- The writes that fail, by path. -/
  faults : Bytes → Option Files.Fault := fun _ => none

/-- What a command leaves behind. -/
structure Reply where
  output : Bytes := []
  failure : Option Failure := none
  files : Files.Node
  /-- The watcher a command has set up, for the folders it is to watch from now
  on. -/
  watcher : Option Watcher := none

namespace Session

/-- The reply of a command that failed. -/
def failing (session : Session) (failure : Failure) : Reply :=
  { failure := some failure, files := session.files }

/-- The reply of a command that printed something and changed no files. -/
def printing (session : Session) (output : Bytes) : Reply :=
  { output, files := session.files }

/-- How a command is to end early.  A timeout below a microsecond is over before
anything is done, unless the command has been ended even before that. -/
def ending (session : Session) (settings : Settings) : Option Interruption :=
  match session.interruption with
  | some { cause, after := 0 } => some { cause }
  | later => if settings.timeout < 1000 then some { cause := .deadline } else later

end Session

/-- The rule file that is used when none is named. -/
def standardConfig : Bytes :=
  ({} : Settings).config

/-- The path of the rule file that is meant. -/
def configPath (config : Bytes) : Bytes :=
  if config.isEmpty then standardConfig else config

/-- Loads a rule file.  What is wrong with its content is said with its path. -/
def loadRuleFile (files : Files.Node) (path : Bytes) : Except Failure RuleFile := do
  let format ← Format.ofPath path
  let text ← Files.read files path
  match RuleFile.parse format text with
  | .ok file => .ok file
  | .error failure => .error (.inside path failure)

/-- Loads the rule file a command uses and compiles its rules. -/
def loadEngine (files : Files.Node) (config : Bytes) : Except Failure (RuleFile × Engine) :=
  let path := configPath config
  match loadRuleFile files path with
  | .error failure =>
      if failure.isNotExist then
        .error (.inside
          (bytes "rule file " ++ path ++
            bytes " not found (create one with \"papagaio init\")")
          failure)
      else
        .error failure
  | .ok file =>
      match file.engine with
      | .error fault => .error (.inside config (.ofSymbols fault))
      | .ok engine => .ok (file, engine)

/-- Reads files; all that cannot be read are reported together. -/
def readAll (files : Files.Node) (paths : List Bytes) : Except Failure (List Bytes) :=
  let reads := paths.map fun path => (path, Files.read files path)
  let failures := reads.filterMap fun (path, outcome) =>
    match outcome with
    | .error failure => some (Failure.inside (bytes "error reading " ++ path) failure)
    | .ok _ => none
  match failures with
  | [] => .ok (reads.filterMap fun (_, outcome) => outcome.toOption)
  | first :: others => .error (others.foldl .both first)

/-- Whether the standard rule file is meant and does not exist. -/
def standardConfigMissing (files : Files.Node) (config : Bytes) : Bool :=
  config == standardConfig &&
    match Files.status files config with
    | .error failure => failure.isNotExist
    | .ok _ => false

/-- Processes texts as one, by the rules they declare or by those of the rule
file. -/
def processTexts (session : Session) (settings : Settings) (texts : List Bytes) :
    Except Failure Bytes :=
  if settings.inline || standardConfigMissing session.files settings.config then
    match processInline texts.flatten
        { keyword := settings.keyword, passes := settings.recursionLimit } with
    | .error fault => .error (.ofSymbols fault)
    | .ok output => .ok output
  else
    match loadEngine session.files settings.config with
    | .error failure => .error failure
    | .ok (_, engine) =>
        match session.ending settings with
        | some { cause, after := 0 } => .error (.because cause)
        | _ => .ok (engine.process texts.flatten)

/-- Processes the named files, or the input when there are none, and prints the
outcome. -/
def run (session : Session) (settings : Settings) (paths : List Bytes) : Reply :=
  let texts := if paths.isEmpty then .ok [session.input] else readAll session.files paths
  match texts with
  | .error failure => session.failing failure
  | .ok texts =>
      match processTexts session settings texts with
      | .error failure => session.failing failure
      | .ok output => session.printing (output ++ [byte '\n'])

/-- The first of some paths that leads nowhere. -/
def inaccessible? (files : Files.Node) (paths : List Bytes) : Option Failure :=
  paths.findSome? fun path =>
    match Files.status files path with
    | .error failure => some (.inside (bytes "error accessing " ++ path) failure)
    | .ok _ => none

/-- The number of unchanged lines shown around a change. -/
def linesAround : Int := 2

/-- What is printed about results. -/
def fixReport (color : Bool) (mode : Mode) (results : List Result) : Bytes :=
  let diffs :=
    if mode = .dryRun then
      (results.filter (·.changed)).flatMap fun result =>
        Report.diff color result.path result.input result.output linesAround
    else
      []
  diffs ++ Report.summary color mode results

/-- Opens the cache that a command is to use, if it is to use one. -/
def openCache (session : Session) (settings : Settings) : Except Failure Workspace :=
  if settings.cacheFolder.isEmpty || settings.dryRun then
    .ok { files := session.files, faults := session.faults }
  else
    match Cache.load settings.cacheFolder settings.cacheMaxAge session.files with
    | .error failure => .error failure
    | .ok (cache, files) => .ok { files, cache := some cache, faults := session.faults }

/-- The files after the cache is stored.  That it cannot be stored is no failure
of the command. -/
def filesWithCache (workspace : Workspace) : Files.Node :=
  match workspace.cache with
  | none => workspace.files
  | some cache => (cache.save workspace.files).tree

/-- The runner of a rule file. -/
def runnerOf (file : RuleFile) (engine : Engine) (mode : Mode) : Runner :=
  { process := engine.processStats, mode, digest := file.digest }

/-- What happens to the files that are processed. -/
def fixMode (settings : Settings) : Mode :=
  if settings.dryRun then .dryRun else .write

/-- What it takes to process the files at and below paths: the runner, the paths of
the files, and the workspace. -/
def prepareFix (session : Session) (settings : Settings) (paths : List Bytes) :
    Except Failure (Runner × List Bytes × Workspace) := do
  if paths.isEmpty then
    throw (.ofText (bytes "requires at least 1 arg(s), only received 0"))
  let (file, engine) ← loadEngine session.files settings.config
  if let some failure := inaccessible? session.files paths then
    throw failure
  let targets ←
    match Scan.scan session.files paths settings.extensions with
    | .error failure => throw (Failure.inside (bytes "error scanning paths") failure)
    | .ok found => pure (found.map (·.path))
  return (runnerOf file engine (fixMode settings), targets, ← openCache session settings)

/-- Processes the files at and below paths in place, or shows what would change. -/
def fix (session : Session) (settings : Settings) (paths : List Bytes) : Reply :=
  match prepareFix session settings paths with
  | .error failure => session.failing failure
  | .ok (runner, targets, workspace) =>
      let outcome := runner.run (session.ending settings) none session.clock targets workspace
      match outcome.failure with
      | some failure => { failure := some failure, files := outcome.workspace.files }
      | none =>
          let failed := (Totals.ofResults outcome.results).failed
          { output := fixReport session.color (fixMode settings) outcome.results
            failure :=
              if failed = 0 then none
              else some (.ofText (Bytes.ofNat failed ++ bytes " files failed"))
            files := filesWithCache outcome.workspace }

/-- Watches folders, the current one if none is named. -/
def watch (session : Session) (settings : Settings) (folders : List Bytes) : Reply :=
  let folders := if folders.isEmpty then [Path.here] else folders
  match loadEngine session.files settings.config with
  | .error failure => session.failing failure
  | .ok (file, engine) =>
      match Watcher.make (some { runnerOf file engine .write with digest := [] })
          settings.extensions with
      | .error failure => session.failing failure
      | .ok watcher =>
          match watcher.add session.files folders with
          | (_, some failure) => session.failing failure
          | (watcher, none) => { files := session.files, watcher := some watcher }

/-- The text of a sample rule file, if it may be written: it replaces another file only
when asked to. -/
def sampleFor (files : Files.Node) (path : Bytes) (force : Bool) : Except Failure Bytes := do
  let format ← Format.ofPath path
  if !force then
    match Files.status files path with
    | .ok _ => throw (.ofText (path ++ bytes " already exists (use --force to overwrite)"))
    | .error failure => if !failure.isNotExist then throw failure
  return RuleFile.sample.encode format

/-- Writes a sample rule file. -/
def init (session : Session) (settings : Settings) : Reply :=
  let path := configPath settings.config
  match sampleFor session.files path settings.force with
  | .error failure => session.failing failure
  | .ok text =>
      match Files.attempt (session.faults path) path text session.files with
      | (files, some failure) => { failure := some failure, files }
      | (files, none) =>
          { output := bytes "Rule file created: " ++ settings.config ++ [byte '\n'], files }

/-- The version of the program. -/
def version : Bytes := bytes "dev\n"

/-- How the program is used. -/
def usage : Bytes :=
  bytes "Usage:\n  papagaio [command] [flags]\n\nCommands:\n" ++
    Verb.all.flatMap fun verb => bytes "  " ++ verb.name ++ [byte '\n']

/-- Executes what a command line asks for. -/
def executeLine (session : Session) (line : Line) : Reply :=
  if line.settings.help then session.printing usage
  else if line.settings.version then session.printing version
  else
    match line.verb with
    | some .run => run session line.settings line.arguments
    | some .fix => fix session line.settings line.arguments
    | some .watch => watch session line.settings line.arguments
    | some .init => init session line.settings
    | some .version => session.printing version
    | some .help | some .completion | none => session.printing usage

/-- Executes a command line. -/
def execute (session : Session) (arguments : List Bytes) : Reply :=
  match Line.read arguments with
  | .error complaint => session.failing complaint.failure
  | .ok line => executeLine session line

/-- What is written to the standard error. -/
def errorText (arguments : List Bytes) (reply : Reply) : Bytes :=
  match reply.failure with
  | none => []
  | some failure =>
      bytes "Error: " ++ failure.message ++ byte '\n' ::
        match Line.read arguments with
        | .error { unknownCommand := true, .. } => bytes "Run 'papagaio --help' for usage.\n"
        | _ => []

end Stencil.Command
