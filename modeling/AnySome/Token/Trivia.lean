import AnySome.Source.Text

/-!
# What stands between tokens

Blanks, line breaks and comments separate tokens and mean nothing
themselves, but what they look like matters: a line break may end a
statement, and a suffix counts only when nothing separates it from its type.
So the gap in front of a token is kept as the list of its pieces, and the
few facts that are asked about it are read off that list.

Block comments nest. A line comment runs up to a line feed, and a carriage
return inside it is part of the comment.

## Main results

* `Trivia.chars_append_drop` — a piece found at the front of a text is the
  front of that text.
* `Trivia.length_pos` — and it is not empty, so that skipping gaps ends.
-/

namespace AnySome

/-! ## Extents -/

/-- How many characters something takes, and whether its end was found. -/
structure Extent where
  length : Nat
  closed : Bool
deriving DecidableEq, Repr

/-! ## Pieces of a gap -/

/-- A piece of the gap in front of a token, with its exact characters. -/
inductive Trivia where
  /-- A line feed or a carriage return. -/
  | lineBreak (char : Char)
  /-- A space, a tab, a vertical tab or a form feed. -/
  | blank (char : Char)
  /-- A comment up to the end of its line. -/
  | lineComment (text : List Char)
  /-- A comment between markers; `closed` tells whether its end was found. -/
  | blockComment (text : List Char) (closed : Bool)
deriving DecidableEq, Repr

namespace Trivia

/-- A character that ends a line. -/
def isLineBreak (c : Char) : Bool := c == '\n' || c == '\r'

theorem isLineBreak_iff {c : Char} : isLineBreak c = true ↔ c = '\n' ∨ c = '\r' := by
  simp [isLineBreak]

/-- A character that separates tokens within a line. -/
def isBlank (c : Char) : Bool := c == ' ' || c == '\t' || c == '\x0b' || c == '\x0c'

theorem isBlank_iff {c : Char} :
    isBlank c = true ↔ c = ' ' ∨ c = '\t' ∨ c = '\x0b' ∨ c = '\x0c' := by
  simp [isBlank, or_assoc]

/-- The characters of a piece. -/
def chars : Trivia → List Char
  | .lineBreak c => [c]
  | .blank c => [c]
  | .lineComment text => text
  | .blockComment text _ => text

/-- The piece puts the next token on a new line. -/
def breaksLine : Trivia → Bool
  | .lineBreak _ => true
  | .blank _ => false
  | .lineComment _ => false
  | .blockComment text _ => text.any isLineBreak

/-- The piece is a block comment whose end is missing. -/
def isUnclosed : Trivia → Bool
  | .blockComment _ closed => !closed
  | _ => false

/-- The piece is a comment. -/
def isComment : Trivia → Bool
  | .lineComment _ => true
  | .blockComment _ _ => true
  | _ => false

/-! ## Finding the pieces -/

/-- How far a block comment reaches when `depth` comments are open and `seen`
characters of it are already known. -/
def blockExtent : (depth seen : Nat) → List Char → Extent
  | 0, seen, _ => ⟨seen, true⟩
  | _ + 1, seen, [] => ⟨seen, false⟩
  | depth + 1, seen, '/' :: '*' :: cs => blockExtent (depth + 2) (seen + 2) cs
  | depth + 1, seen, '*' :: '/' :: cs => blockExtent depth (seen + 2) cs
  | depth + 1, seen, _ :: cs => blockExtent (depth + 1) (seen + 1) cs

/-- The piece at the front of `cs`, if a gap begins there. -/
def scan? : List Char → Option Trivia
  | [] => none
  | c :: cs =>
    if isLineBreak c then some (.lineBreak c)
    else if isBlank c then some (.blank c)
    else if c = '/' then
      match cs with
      | '/' :: body => some (.lineComment ('/' :: '/' :: body.takeWhile (· ≠ '\n')))
      | '*' :: body =>
        let extent := blockExtent 1 0 body
        some (.blockComment ('/' :: '*' :: body.take extent.length) extent.closed)
      | _ => none
    else none

/-- A piece found at the front of a text has at least one character. -/
theorem length_pos {cs : List Char} {t : Trivia} (h : scan? cs = some t) :
    0 < t.chars.length := by
  unfold scan? at h
  split at h
  · contradiction
  · split at h
    · cases h; simp [chars]
    split at h
    · cases h; simp [chars]
    split at h
    · split at h
      · cases h; simp [chars]
      · cases h; simp [chars]
      · contradiction
    · contradiction

/-- Dropping as many characters as a front part has leaves what follows it. -/
private theorem append_drop_of_append {as bs cs : List Char} (h : as ++ bs = cs) :
    as ++ cs.drop as.length = cs := by
  subst h
  simp

/-- A piece found at the front of a text is the front of that text. -/
theorem chars_append_drop {cs : List Char} {t : Trivia} (h : scan? cs = some t) :
    t.chars ++ cs.drop t.chars.length = cs := by
  unfold scan? at h
  split at h
  · contradiction
  split at h
  · cases h; simp [chars]
  split at h
  · cases h; simp [chars]
  split at h
  next hc =>
    subst hc
    split at h
    · cases h
      simpa only [chars, List.cons_append, List.length_cons, List.drop_succ_cons] using
        congrArg (fun l => '/' :: '/' :: l)
          (append_drop_of_append List.takeWhile_append_dropWhile)
    · cases h
      simpa only [chars, List.cons_append, List.length_cons, List.drop_succ_cons] using
        congrArg (fun l => '/' :: '*' :: l)
          (append_drop_of_append (List.take_append_drop _ _))
    · contradiction
  · contradiction

/-- The gap at the front of `cs`, piece by piece, and what follows it. -/
def gap (cs : List Char) : List Trivia × List Char :=
  match _h : scan? cs with
  | none => ([], cs)
  | some t =>
    let (ts, rest) := gap (cs.drop t.chars.length)
    (t :: ts, rest)
termination_by cs.length
decreasing_by
  have hpos := length_pos _h
  have happ := congrArg List.length (chars_append_drop _h)
  simp only [List.length_append, List.length_drop] at happ ⊢
  omega

end Trivia

end AnySome
