import Stencil.Engine.Basic
import Stencil.Failure

/-!
# Results of a run

What a run does with the texts it produces, and what it reports about each
file.
-/

namespace Stencil

/-- What a run does with the texts it produces. -/
inductive Mode where
  /-- The texts are printed. -/
  | print
  /-- Files whose text changed are written. -/
  | write
  /-- Nothing is printed and nothing is written. -/
  | dryRun
  /-- Nothing is printed and nothing is written, and nobody asked for that. -/
  | unknown
  deriving DecidableEq

namespace Mode

/-- The name of a mode. -/
def name : Mode → String
  | .print => "print"
  | .write => "write"
  | .dryRun => "dry-run"
  | .unknown => "unknown"

/-- The mode with a number. -/
def ofNumber : Int → Mode
  | 0 => .print
  | 1 => .write
  | 2 => .dryRun
  | _ => .unknown

end Mode

/-- What happened to one file. -/
structure Result where
  path : Bytes := []
  input : Bytes := []
  output : Bytes := []
  stats : Stats := {}
  /-- The file was skipped, because it is known to be what the rules left. -/
  cached : Bool := false
  failure : Option Failure := none
  deriving DecidableEq, Inhabited

/-- Whether the rules changed the text. -/
def Result.changed (result : Result) : Bool :=
  result.failure.isNone && !result.cached && result.input != result.output

/-- The sums over the results of a run. -/
structure Totals where
  files : Nat := 0
  changed : Nat := 0
  cached : Nat := 0
  failed : Nat := 0
  stats : Stats := {}
  deriving DecidableEq

namespace Totals

/-- The statistics that count: those of the files that were read and processed. -/
def counted (result : Result) : Stats :=
  if result.failure.isSome || result.cached then {} else result.stats

/-- A sum as a signed number of 64 bits. -/
def wrapped (sum : Int) : Int :=
  sum.bmod 0x10000000000000000

/-- The sums over results. -/
def ofResults (results : List Result) : Totals where
  files := results.length
  changed := results.countP (·.changed)
  cached := results.countP fun result => result.failure.isNone && result.cached
  failed := results.countP (·.failure.isSome)
  stats :=
    { total := wrapped (results.foldl (fun sum result => sum + (counted result).total) 0)
      perRule :=
        (results.foldl (fun sum result => Tally.merge sum (counted result).perRule) []).map
          fun (label, n) => (label, wrapped n) }

end Totals

end Stencil
