import AnySome.Numeric.Rounding
import AnySome.Report.Basic

/-!
# The report as text

A warning for every file that was left untouched, unless only because the run
was cancelled, and one line that sums up. On a terminal the label of a warning
and the summary are bold and coloured: red for a cancelled run, yellow for one
with failures, green otherwise.
-/

namespace AnySome.Report

/-- A colour of the terminal. -/
inductive Color where
  | red
  | green
  | yellow
deriving DecidableEq, Repr

/-- The number of a colour in an escape sequence. -/
def Color.code : Color → String
  | .red => "31"
  | .green => "32"
  | .yellow => "33"

/-- The text in bold and colour, if `colored` is set. -/
def paint (colored : Bool) (color : Color) (text : String) : String :=
  if colored then "\x1b[1;" ++ color.code ++ "m" ++ text ++ "\x1b[0m" else text

/-- The line that sums up. -/
def summary (r : Report) : String :=
  (if r.dryRun then "Would migrate " else "Migrated ") ++ toString r.changedCount ++ " of "
    ++ toString r.discovered ++ " files (" ++ toString r.ascriptionCount ++ " annotations, "
    ++ toString r.interfaces ++ " interfaces found), " ++ toString r.unchangedCount
    ++ " unchanged, " ++ toString r.failedCount ++ " failed in "
    ++ Numeric.showSeconds r.nanoseconds ++ "s" ++ (if r.cancelled then " (cancelled)" else "")

/-- The colour of the summary. -/
def summaryColor (r : Report) : Color :=
  if r.cancelled then .red else if 0 < r.failedCount then .yellow else .green

/-- The warning for a file that was left untouched. -/
def warning (colored : Bool) (path : String) (error : FileError) : String :=
  match error with
  | .cancelled => ""
  | _ => paint colored .yellow "warning" ++ ": " ++ path ++ ": " ++ error.display ++ "\n"

/-- The report as text. -/
def render (r : Report) (colored : Bool) : String :=
  String.join (r.failures.map fun (path, error) => warning colored path error)
    ++ paint colored r.summaryColor r.summary

end AnySome.Report
