import Stencil.Command.Flag
import Stencil.Command.Suggest

/-!
# Command lines

A command line names a command among its flags.  Flags can stand in front of the
command if every command knows them.
-/

namespace Stencil.Command

/-- The commands. -/
inductive Verb where
  /-- Processes texts and prints the outcome. -/
  | run
  /-- Processes files in place. -/
  | fix
  /-- Processes files in place whenever they are written. -/
  | watch
  /-- Writes a sample rule file. -/
  | init
  | version
  | help
  | completion
  deriving DecidableEq

namespace Verb

/-- All commands. -/
def all : List Verb :=
  [.run, .fix, .watch, .init, .version, .help, .completion]

/-- The name of a command. -/
def name : Verb → Bytes
  | .run => bytes "run"
  | .fix => bytes "fix"
  | .watch => bytes "watch"
  | .init => bytes "init"
  | .version => bytes "version"
  | .help => bytes "help"
  | .completion => bytes "completion"

/-- The command with a name. -/
def ofName? (name : Bytes) : Option Verb :=
  all.find? fun verb => verb.name == name

/-- The names that can be meant by a word that is no command. -/
def suggested : List Bytes :=
  (all.filter (· != .help)).map name

/-- The flags that only some commands know. -/
def ownFlags : Verb → List Flag
  | .run => [.inline, .keyword, .recursionLimit]
  | .fix => [.dryRun, .extensions, .jobs, .cacheFolder, .cacheMaxAge, .progress]
  | .watch => [.extensions]
  | .init => [.force]
  | .version | .help | .completion => []

end Verb

/-- The flags that every command knows. -/
def sharedFlags : List Flag :=
  [.config, .timeout, .verbose]

/-- The flags of a command, or of a command line without one. -/
def flagsOf : Option Verb → List Flag
  | some verb => sharedFlags ++ verb.ownFlags ++ [.help]
  | none => sharedFlags ++ [.help, .version]

/-- Whether an argument in front of a command takes the next one as its value.
Only the switches that every command knows are certain not to. -/
def awaitsValue (argument : Bytes) : Bool :=
  let switches := sharedFlags.filter (·.isSwitch)
  match Argument.of argument with
  | .long name none => !switches.any fun flag => flag.name == name
  | .letters [letter] =>
      letter != byte '=' && !switches.any fun flag => flag.letter? == some letter
  | _ => false

/-- Whether an argument begins like a flag. -/
def isDashed (argument : Bytes) : Bool :=
  argument.head? == some (byte '-')

/-- The first argument that is neither a flag nor the value of one.  A value needs
another argument behind it. -/
def commandWord? : List Bytes → Option Bytes
  | [] => none
  | argument :: arguments =>
      if argument = bytes "--" then none
      else if awaitsValue argument then
        match arguments with
        | _ :: next :: rest => commandWord? (next :: rest)
        | _ => none
      else if argument.isEmpty || isDashed argument then commandWord? arguments
      else some argument

/-- The arguments without the word that names the command. -/
def withoutWord (word : Bytes) : List Bytes → List Bytes
  | [] => []
  | argument :: arguments =>
      if argument = bytes "--" then argument :: arguments
      else if awaitsValue argument then
        match arguments with
        | [] => [argument]
        | value :: rest => argument :: value :: withoutWord word rest
      else if argument = word then arguments
      else argument :: withoutWord word arguments

/-- What a command line asks for. -/
structure Line where
  /-- The command, if one is named. -/
  verb : Option Verb
  settings : Settings
  arguments : List Bytes

/-- A complaint about a command line. -/
structure Complaint where
  failure : Failure
  /-- The command itself is not known. -/
  unknownCommand : Bool := false

/-- The complaint about a word that is no command. -/
def unknownCommand (word : Bytes) : Complaint :=
  let near := suggestions Verb.suggested word
  let hint :=
    if near.isEmpty then []
    else
      bytes "\n\nDid you mean this?\n" ++
        near.flatMap fun name => byte '\t' :: name ++ [byte '\n']
  { failure :=
      .ofText (bytes "unknown command " ++ Quoted.quote word ++ bytes " for \"papagaio\"" ++ hint)
    unknownCommand := true }

/-- Reads the flags of a command. -/
def readLine (verb : Option Verb) (arguments : List Bytes) : Except Complaint Line :=
  match readArguments (flagsOf verb) arguments {} [] with
  | .error failure => .error { failure }
  | .ok (settings, arguments) => .ok { verb, settings, arguments }

/-- Reads a command line. -/
def Line.read (arguments : List Bytes) : Except Complaint Line :=
  match commandWord? arguments with
  | none => readLine none arguments
  | some word =>
      match Verb.ofName? word with
      | none => .error (unknownCommand word)
      | some verb => readLine (some verb) (withoutWord word arguments)

end Stencil.Command
