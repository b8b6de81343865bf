import AnySome.Cursor.Basic

/-!
# Parsers over a cursor

A parser takes a cursor to a result and a later cursor. It never fails: what
is wrong is noted in the cursor, and a result is built from what is there.

Repetition goes through three loops. Each of them stops when a round
consumes nothing, so each of them ends whatever it repeats.
-/

namespace AnySome

/-- Takes a cursor to a result and a later cursor. -/
abbrev Parser (α : Type) := StateM Cursor α

namespace Parser

/-! ## Single steps -/

/-- The token at the cursor. -/
def current : Parser Token := fun c => (c.current, c)

/-- The kind of the token at the cursor. -/
def kind : Parser Kind := fun c => (c.kind, c)

/-- The token at the cursor is of kind `k`. -/
def isAt (k : Kind) : Parser Bool := fun c => (c.kind == k, c)

/-- The token at the cursor may serve as a name. -/
def isAtName : Parser Bool := fun c => (c.kind.isName, c)

/-- The token at the cursor is separated from the one before. -/
def isSeparated : Parser Bool := fun c => (c.current.isSeparated, c)

/-- Consumes the current token. -/
def advance : Parser Unit := fun c => ((), c.advance)

/-- Notes a problem with the current token. -/
def reportHere (fault : Fault) : Parser Unit := fun c => ((), c.reportHere fault)

/-- Notes a problem with the delimiter at byte `start`. -/
def reportDelimiter (start : Nat) (fault : Fault) : Parser Unit :=
  fun c => ((), c.reportDelimiter start fault)

/-- Runs `p` and gives the text that it consumed, as written. -/
def written (p : Parser Unit) : Parser String := fun c =>
  let later := (p c).2
  (c.writtenSince later, later)

/-- Runs `p` and gives its result with the span that it consumed. -/
def spanned (p : Parser α) : Parser (α × Span) := fun c =>
  let (a, later) := p c
  ((a, ⟨c.current.start, max later.previousStop c.current.start⟩), later)

/-- Consumes the closing delimiter of the clause opened at byte `start`. -/
def close (bracket : Bracket) (start : Nat) : Parser Unit := fun c =>
  if c.kind = .closing bracket then ((), c.advance)
  else ((), c.reportDelimiter start (.unmatched bracket))

/-! ## Loops -/

/-- What one round of a repetition found. -/
inductive Round (α : Type) where
  /-- Nothing: the repetition is over. -/
  | finished
  /-- The last item. -/
  | last (item : α)
  /-- An item, after which there may be more. -/
  | more (item : α)

/-- The round that found `item?`, after which there may be more if it is an
item. -/
def Round.ofOption : (item? : Option α) → Round α
  | none => .finished
  | some a => .more a

/-- Repeats `round` and lists the items that it found. -/
def collect (round : Parser (Round α)) (c : Cursor) : List α × Cursor :=
  match round c with
  | (.finished, later) => ([], later)
  | (.last a, later) => ([a], later)
  | (.more a, later) =>
    if later.remaining < c.remaining then
      let (as, final) := collect round later
      (a :: as, final)
    else ([a], later)
termination_by c.remaining
decreasing_by assumption

/-- Repeats `round` on a growing result until it gives none. -/
def iterate (round : α → Parser (Option α)) (a : α) (c : Cursor) : α × Cursor :=
  match round a c with
  | (none, later) => (a, later)
  | (some b, later) =>
    if later.remaining < c.remaining then iterate round b later else (b, later)
termination_by c.remaining
decreasing_by assumption

/-- Items for as long as `item` gives them. -/
def many (item : Parser (Option α)) : Parser (List α) :=
  collect do
    return Round.ofOption (← item)

/-- Items separated by commas, up to a token at which the list is over. A
comma may stand behind the last item. -/
def commaSeparated (isOver : Kind → Bool) (item : Parser α) : Parser (List α) :=
  collect do
    if isOver (← kind) then return .finished
    else
      let a ← item
      if ← isAt .comma then
        advance
        return .more a
      else return .last a

end Parser

end AnySome
