import AnySome.Source.Blank

/-!
# Choices for the log

What the program logs goes to the error stream and is no part of its answer;
only the choices for it are made here.
-/

namespace AnySome

/-- The form of log messages. -/
inductive LogFormat where
  | text
  | tree
  | json
deriving DecidableEq, Repr

/-- Reads a form, in upper or lower case and with blanks around it. Anything
unknown is plain text. -/
def LogFormat.parse (text : String) : LogFormat :=
  match Text.asciiLower (Text.trim text) with
  | "tree" => .tree
  | "json" => .json
  | _ => .text

/-- The least level that is logged unless the environment says otherwise. -/
def defaultLogLevel (verbose : Bool) : String := if verbose then "info" else "warn"

end AnySome
