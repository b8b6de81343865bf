import AnySome.Source.LineMap

/-!
# Diagnostics and rejected files

A diagnostic is one problem found in one source file, anchored at a range of
bytes. A file that has any is rejected as a whole: the rejection carries all
of them and points at the first.
-/

namespace AnySome

/-- How much a problem matters. -/
inductive Severity where
  | warning
  | error
deriving DecidableEq, Repr

/-- The word for a severity in messages. -/
def Severity.label : Severity → String
  | .warning => "warning"
  | .error => "error"

/-- A problem found in one source file, anchored at a byte offset. -/
structure Diagnostic where
  severity : Severity
  file : String
  start : Nat
  length : Nat
  message : String
deriving DecidableEq, Repr

namespace Diagnostic

/-- The problem is an error. -/
def isError (d : Diagnostic) : Bool := d.severity == .error

/-- One line for people: file, offset, severity and message. -/
def display (d : Diagnostic) : String :=
  d.file ++ "@" ++ toString d.start ++ ": " ++ d.severity.label ++ ": " ++ d.message

end Diagnostic

/-- A file that could not be made sense of. Line and column are those of its
first diagnostic and are counted from one. -/
structure ParseError where
  file : String
  line : Nat
  column : Nat
  diagnostics : List Diagnostic
deriving DecidableEq, Repr

namespace ParseError

/-- The rejection of `text` for the given diagnostics. -/
def ofDiagnostics (file text : String) (diagnostics : List Diagnostic) : ParseError :=
  let offset := (diagnostics.head?.map Diagnostic.start).getD 0
  let place := Position.ofOffset text offset
  ⟨file, place.line + 1, place.column + 1, diagnostics⟩

/-- The message of the first diagnostic. -/
def message (e : ParseError) : String :=
  (e.diagnostics.head?.map Diagnostic.message).getD "malformed source"

/-- One line for people: place, first message, and how many more there are. -/
def display (e : ParseError) : String :=
  let place := e.file ++ ":" ++ toString e.line ++ ":" ++ toString e.column
  let more :=
    if 1 < e.diagnostics.length then
      " (and " ++ toString (e.diagnostics.length - 1) ++ " more)"
    else ""
  place ++ ": " ++ e.message ++ more

end ParseError

end AnySome
