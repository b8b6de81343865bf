import AnySome.Source.Text

/-!
# Lines and columns

A byte offset into a text is shown to people as a line and a column. Only a
line feed ends a line, and columns count bytes from the start of the line.
Offsets beyond the text are columns of its last line.

`Position.walk` says which place an offset stands for, character by character.
The program looks it up in a table of line starts.

## Main results

* `Position.walk_append` — behind a front part of a text stands the place that
  its characters lead to.
-/

namespace AnySome

/-- A place in a text: lines and columns are counted from zero. -/
structure Position where
  line : Nat
  column : Nat
deriving DecidableEq, Repr, Inhabited

namespace Position

/-- The place of a character's end, given the place of its start. -/
def after (p : Position) (c : Char) : Position :=
  if c = '\n' then ⟨p.line + 1, 0⟩ else ⟨p.line, p.column + c.utf8Size⟩

/-- The place `offset` bytes into `cs`, where `cs` begins at `p`. -/
def walk (p : Position) : Nat → List Char → Position
  | 0, _ => p
  | n + 1, [] => ⟨p.line, p.column + (n + 1)⟩
  | n + 1, c :: cs =>
    if c.utf8Size ≤ n + 1 then (p.after c).walk (n + 1 - c.utf8Size) cs
    else ⟨p.line, p.column + (n + 1)⟩

@[simp] theorem walk_zero (p : Position) (cs : List Char) : p.walk 0 cs = p := by
  cases cs <;> rfl

/-- A whole character is walked over at once. -/
theorem walk_cons (p : Position) (n : Nat) (c : Char) (cs : List Char) :
    p.walk (c.utf8Size + n) (c :: cs) = (p.after c).walk n cs := by
  have hpos := c.utf8Size_pos
  obtain ⟨m, hm⟩ : ∃ m, c.utf8Size + n = m + 1 := ⟨c.utf8Size + n - 1, by omega⟩
  rw [hm, walk, if_pos (by omega)]
  congr 1
  omega

/-- Inside a character the place is in its line. -/
theorem walk_inside (p : Position) {n : Nat} {c : Char} (h : n < c.utf8Size) (cs : List Char) :
    p.walk n (c :: cs) = ⟨p.line, p.column + n⟩ := by
  cases n with
  | zero => rfl
  | succ n => rw [walk, if_neg (Nat.not_le_of_lt h)]

/-- Behind a front part of a text stands the place that its characters lead
to, whatever follows. -/
theorem walk_append (p : Position) (as bs : List Char) :
    p.walk (Text.byteLength as) (as ++ bs) = as.foldl after p := by
  induction as generalizing p with
  | nil => simp
  | cons a as ih =>
    rw [Text.byteLength_cons, List.cons_append, walk_cons, ih]
    rfl

end Position

end AnySome
