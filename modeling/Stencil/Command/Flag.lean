import Stencil.Command.Value
import Stencil.Failure

/-!
# Flags

What a command can be told on the command line, and how it is written there:
`--name value`, `--name=value`, `-n value`, `-nvalue`, `-n=value`.  A switch needs
no value, and short switches can be written as one.  Behind `--` there are no
more flags.
-/

namespace Stencil.Command

/-- What a command can be told. -/
structure Settings where
  /-- The path of the rule file. -/
  config : Bytes := bytes ".papagaio.yaml"
  /-- How long a command may take, in nanoseconds. -/
  timeout : Int := 5 * 60 * 1000000000
  verbose : Bool := false
  /-- The rules are those that the input declares. -/
  inline : Bool := false
  /-- The word that begins a declaration. -/
  keyword : Bytes := bytes "pattern"
  recursionLimit : Int := 512
  dryRun : Bool := false
  extensions : List Bytes := []
  jobs : Int := 0
  cacheFolder : Bytes := []
  /-- How old a cache entry may be, in nanoseconds. -/
  cacheMaxAge : Int := 0
  progress : Bool := false
  /-- A rule file may be replaced. -/
  force : Bool := false
  help : Bool := false
  version : Bool := false
  deriving DecidableEq

/-- The flags of all commands. -/
inductive Flag where
  | config
  | timeout
  | verbose
  | inline
  | keyword
  | recursionLimit
  | dryRun
  | extensions
  | jobs
  | cacheFolder
  | cacheMaxAge
  | progress
  | force
  | help
  | version
  deriving DecidableEq

namespace Flag

/-- The name of a flag. -/
def name : Flag → Bytes
  | .config => bytes "config"
  | .timeout => bytes "timeout"
  | .verbose => bytes "verbose"
  | .inline => bytes "inline"
  | .keyword => bytes "keyword"
  | .recursionLimit => bytes "recursion-limit"
  | .dryRun => bytes "dry-run"
  | .extensions => bytes "ext"
  | .jobs => bytes "jobs"
  | .cacheFolder => bytes "cache-dir"
  | .cacheMaxAge => bytes "cache-max-age"
  | .progress => bytes "progress"
  | .force => bytes "force"
  | .help => bytes "help"
  | .version => bytes "version"

/-- The letter of a flag. -/
def letter? : Flag → Option UInt8
  | .config => some (byte 'c')
  | .jobs => some (byte 'j')
  | .force => some (byte 'f')
  | .help => some (byte 'h')
  | .version => some (byte 'v')
  | _ => none

/-- Whether a flag needs no value. -/
def isSwitch : Flag → Bool
  | .verbose | .inline | .dryRun | .progress | .force | .help | .version => true
  | _ => false

/-- How a flag is referred to. -/
def label (flag : Flag) : Bytes :=
  match flag.letter? with
  | some letter => byte '-' :: letter :: bytes ", --" ++ flag.name
  | none => bytes "--" ++ flag.name

/-- Gives a flag a value. -/
def set (flag : Flag) (value : Bytes) (settings : Settings) : Except Bytes Settings :=
  match flag with
  | .config => .ok { settings with config := value }
  | .timeout => (readDuration value).map fun n => { settings with timeout := n }
  | .verbose => (readBool value).map fun b => { settings with verbose := b }
  | .inline => (readBool value).map fun b => { settings with inline := b }
  | .keyword => .ok { settings with keyword := value }
  | .recursionLimit => (readInt value).map fun n => { settings with recursionLimit := n }
  | .dryRun => (readBool value).map fun b => { settings with dryRun := b }
  | .extensions =>
      (readList value).map fun items =>
        { settings with extensions := settings.extensions ++ items }
  | .jobs => (readInt value).map fun n => { settings with jobs := n }
  | .cacheFolder => .ok { settings with cacheFolder := value }
  | .cacheMaxAge => (readDuration value).map fun n => { settings with cacheMaxAge := n }
  | .progress => (readBool value).map fun b => { settings with progress := b }
  | .force => (readBool value).map fun b => { settings with force := b }
  | .help => (readBool value).map fun b => { settings with help := b }
  | .version => (readBool value).map fun b => { settings with version := b }

/-- Gives a flag a value, or says what is wrong with it. -/
def assign (flag : Flag) (value : Bytes) (settings : Settings) : Except Failure Settings :=
  match flag.set value settings with
  | .ok settings => .ok settings
  | .error reason =>
      .error (.inside
        (bytes "invalid argument " ++ Quoted.quote value ++ bytes " for " ++
          Quoted.quote flag.label ++ bytes " flag")
        (.ofText reason))

end Flag

/-- The value of a switch without one. -/
def switchedOn : Bytes := bytes "true"

/-- A letter in single quotes.  One outside ASCII is shown by the byte that its
UTF-8 form begins with. -/
def quoteLetter (letter : UInt8) : Bytes :=
  let quoted : Bytes :=
    if letter == byte '\'' then [byte '\\', letter]
    else if letter == byte '"' then [letter]
    else
      let shown := (Utf8.encode [Char.ofNat letter.toNat]).headD letter
      Quoted.char (Char.ofNat shown.toNat)
  byte '\'' :: quoted ++ [byte '\'']

/-- What an argument is. -/
inductive Argument where
  | plain
  /-- There are no flags behind this one. -/
  | endOfFlags
  /-- A name, with the value behind its equals sign if it has one. -/
  | long (name : Bytes) (value : Option Bytes)
  | letters (text : Bytes)
  deriving DecidableEq

/-- A text up to its first equals sign, and what follows the sign. -/
def splitAtEquals (text : Bytes) : Bytes × Option Bytes :=
  let name := text.takeWhile (· != byte '=')
  (name, if name.length < text.length then some (text.drop (name.length + 1)) else none)

/-- What an argument is.  A single dash is no flag. -/
def Argument.of : Bytes → Argument
  | [] | [_] => .plain
  | first :: second :: rest =>
      if first != byte '-' then .plain
      else if second != byte '-' then .letters (second :: rest)
      else if rest.isEmpty then .endOfFlags
      else .long (splitAtEquals rest).1 (splitAtEquals rest).2

/-- Reads the letters of an argument.  A flag that needs a value takes the rest of
the argument; if there is none it is the second part of the answer, and its value
is still to come. -/
def readLetters (flags : List Flag) :
    Bytes → Settings → Except Failure (Settings × Option Flag)
  | [], settings => .ok (settings, none)
  | letter :: text, settings =>
      match flags.find? fun flag => flag.letter? == some letter with
      | none =>
          .error (.ofText (bytes "unknown shorthand flag: " ++ quoteLetter letter ++
            bytes " in -" ++ letter :: text))
      | some flag =>
          match text with
          | [] =>
              if flag.isSwitch then do return (← flag.assign switchedOn settings, none)
              else .ok (settings, some flag)
          | next :: rest =>
              if next == byte '=' && !rest.isEmpty then do
                return (← flag.assign rest settings, none)
              else if flag.isSwitch then do
                readLetters flags (next :: rest) (← flag.assign switchedOn settings)
              else do
                return (← flag.assign (next :: rest) settings, none)

/-- Reads arguments: the settings they make, and those that are not flags. -/
def readArguments (flags : List Flag) :
    List Bytes → Settings → List Bytes → Except Failure (Settings × List Bytes)
  | [], settings, plain => .ok (settings, plain)
  | argument :: arguments, settings, plain =>
      match Argument.of argument with
      | .plain => readArguments flags arguments settings (plain ++ [argument])
      | .endOfFlags => .ok (settings, plain ++ arguments)
      | .long name value =>
          if name.isEmpty || name.head? == some (byte '-') then
            .error (.ofText (bytes "bad flag syntax: " ++ argument))
          else
            match flags.find? fun flag => flag.name == name with
            | none => .error (.ofText (bytes "unknown flag: --" ++ name))
            | some flag =>
                match value with
                | some value => do
                    readArguments flags arguments (← flag.assign value settings) plain
                | none =>
                    if flag.isSwitch then do
                      readArguments flags arguments (← flag.assign switchedOn settings) plain
                    else
                      match arguments with
                      | [] => .error (.ofText (bytes "flag needs an argument: --" ++ name))
                      | value :: arguments => do
                          readArguments flags arguments (← flag.assign value settings) plain
      | .letters text =>
          match readLetters flags text settings with
          | .error failure => .error failure
          | .ok (settings, none) => readArguments flags arguments settings plain
          | .ok (settings, some flag) =>
              match arguments with
              | [] =>
                  .error (.ofText (bytes "flag needs an argument: " ++
                    quoteLetter (flag.letter?.getD 0) ++ bytes " in -" ++ flag.letter?.toList))
              | value :: arguments => do
                  readArguments flags arguments (← flag.assign value settings) plain

end Stencil.Command
