import Stencil.Report.Style
import Stencil.Run.Result

/-!
# Summing up a run

Failures come first, then one line for every changed file, then the sums and
the counts by rule.
-/

namespace Stencil.Report

/-- What happened to a changed file, in words. -/
def changeVerb : Mode → Bytes
  | .dryRun => bytes "would rewrite"
  | _ => bytes "rewrote"

/-- The line for a failure. -/
def failureLine (color : Bool) (failure : Failure) : Bytes :=
  Style.error.paint color (bytes "error: ") ++ failure.message ++ [byte '\n']

/-- The line for a changed file. -/
def changedLine (color : Bool) (mode : Mode) (result : Result) : Bytes :=
  changeVerb mode ++ byte ' ' :: Style.file.paint color result.path ++ bytes " (" ++
    Bytes.ofInt result.stats.total ++ bytes " matches)\n"

/-- The line with the sums. -/
def totalsLine (color : Bool) (totals : Totals) : Bytes :=
  Style.summary.paint color
      (Bytes.ofNat totals.files ++ bytes " files, " ++ Bytes.ofNat totals.changed ++
        bytes " changed, " ++ Bytes.ofNat totals.cached ++ bytes " cached, " ++
        Bytes.ofNat totals.failed ++ bytes " failed, " ++ Bytes.ofInt totals.stats.total ++
        bytes " matches") ++
    [byte '\n']

/-- The line with the count of a rule. -/
def ruleLine (label : Bytes) (n : Int) : Bytes :=
  bytes "  " ++ label ++ bytes ": " ++ Bytes.ofInt n ++ [byte '\n']

/-- The summary of a run. -/
def summary (color : Bool) (mode : Mode) (results : List Result) : Bytes :=
  let totals := Totals.ofResults results
  (results.filterMap (·.failure)).flatMap (failureLine color) ++
    (results.filter (·.changed)).flatMap (changedLine color mode) ++
    totalsLine color totals ++
    totals.stats.perRule.flatMap fun (label, n) => ruleLine label n

end Stencil.Report
