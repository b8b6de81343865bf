import AnySome.Declaration.Parser
import AnySome.TypeExpr.Printer

/-!
# Source files

A source file is its text and the declarations read from it. It is written
back by copying the text and putting the new form of every changed ascription
in the place of the old one; a file without changes is written as it was
read.

## Main results

* `SourceFile.render_of_unchanged` — a file without changes is its text.
-/

namespace AnySome

/-- A text and what was read from it. -/
structure SourceFile where
  name : String
  text : String
  declarations : List Declaration
deriving Repr

namespace SourceFile

/-! ## Reading -/

/-- Reads whatever can be read, and notes what is wrong. -/
def recover (name text : String) : SourceFile × List Diagnostic :=
  let (declarations, after) := Declaration.parser (Cursor.start (TokenStream.scan text))
  (⟨name, text, declarations⟩, after.findings.map (·.toDiagnostic name))

/-- The problems that are known before anything is read: the first token may
be unterminated. -/
def firstTokenDiagnostics (name text : String) : List Diagnostic :=
  (Cursor.start (TokenStream.scan text)).findings.map (·.toDiagnostic name)

/-- Reads a text; a text with problems is rejected. -/
def parse (name text : String) : Except ParseError SourceFile :=
  let (file, diagnostics) := recover name text
  if diagnostics.isEmpty then .ok file
  else .error (ParseError.ofDiagnostics name text diagnostics)

/-! ## Contents -/

/-- The ascriptions by their start; those with the same start keep their
order. -/
def sortByStart (as : List Ascription) : List Ascription :=
  as.mergeSort fun a b => a.span.start ≤ b.span.start

/-- All ascriptions, by their start. -/
def ascriptions (f : SourceFile) : List Ascription :=
  sortByStart (Declaration.ascriptionsList f.declarations)

/-- Number of changed ascriptions. -/
def changedCount (f : SourceFile) : Nat :=
  (Declaration.ascriptionsList f.declarations).countP Ascription.isChanged

/-- The names of the protocols that the file declares, with repetition. -/
def interfaceNames (f : SourceFile) : List String :=
  Declaration.interfaceNamesList f.declarations

/-! ## Writing -/

/-- Copies the rest of a text of `size` bytes, which starts at byte `offset`,
with the new form of each of the changed ascriptions. One that starts before
`offset` or ends beyond the text is left out. -/
def splice (size offset : Nat) (rest : List Char) : List Ascription → List Char
  | [] => rest
  | a :: as =>
    if a.span.start < offset || size < a.span.stop then splice size offset rest as
    else
      let kept := (Text.takeBytes? (a.span.start - offset) rest).getD []
      let behind := (Text.dropBytes? (a.span.stop - offset) rest).getD []
      kept ++ a.type.print.toList ++ splice size a.span.stop behind as

/-- The text with every changed ascription in its new form. -/
def render (f : SourceFile) : String :=
  let cs := f.text.toList
  String.ofList (splice (Text.byteLength cs) 0 cs (f.ascriptions.filter Ascription.isChanged))

/-- A file without changes is written as it was read. -/
theorem render_of_unchanged {f : SourceFile}
    (h : ∀ a ∈ f.ascriptions, a.isChanged = false) : f.render = f.text := by
  have hnone : f.ascriptions.filter Ascription.isChanged = [] := by
    simpa [List.filter_eq_nil_iff] using h
  simp [render, hnone, splice]

end SourceFile

end AnySome
