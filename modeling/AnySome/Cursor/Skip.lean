import AnySome.Cursor.Parser

/-!
# Passing over text that is not modelled

Most of a source text does not matter to the migration: expressions,
statements, clauses, attributes. It is passed over in balanced units, so that
a delimiter is never left open by accident, and every mismatch on the way is
noted as a problem.

The unit of skipping is `Cursor.skipBalanced`: one token, or everything from
an opening delimiter through the one that closes it. A closing delimiter of
the wrong kind is noted and left in place; a closing delimiter that nothing
has opened is noted and consumed.

## Main results

* `Cursor.length_skipBalanced_lt` — a unit takes at least one token, if there
  is one; every loop below rests on this.
-/

namespace AnySome

namespace Cursor

/-! ## Balanced units -/

/-- What a token does to the delimiters that are open. -/
inductive Nesting where
  /-- It is consumed, and leaves `opened` open. -/
  | consume (opened : List (Bracket × Nat))
  /-- It closes something that is not open. -/
  | stray (found : Bracket)
  /-- It closes something else than the innermost open delimiter. -/
  | mismatched (expected found : Bracket)
deriving DecidableEq, Repr

/-- What the token `t` does when `opened` are open, innermost first, each with
its byte offset. -/
def nesting (opened : List (Bracket × Nat)) (t : Token) : Nesting :=
  match t.kind with
  | .opening bracket => .consume ((bracket, t.start) :: opened)
  | .closing found =>
    match opened with
    | [] => .stray found
    | (expected, _) :: outer =>
      if expected = found then .consume outer else .mismatched expected found
  | _ => .consume opened

/-- Passes over one unit, inside the delimiters `opened`. -/
def skipWithin (opened : List (Bracket × Nat)) (c : Cursor) : Cursor :=
  match _h : c.pending with
  | [] =>
    match opened with
    | [] => c
    | (bracket, start) :: _ => c.reportDelimiter start (.unclosed bracket)
  | t :: _ =>
    match nesting opened t with
    | .stray found => (c.reportHere (.stray found)).advance
    | .mismatched expected found => c.reportHere (.mismatched expected found)
    | .consume opened' =>
      if opened'.isEmpty then c.advance else skipWithin opened' c.advance
termination_by c.pending.length
decreasing_by simp [_h]

/-- Passes over one token, or from an opening delimiter through the one that
closes it. -/
def skipBalanced (c : Cursor) : Cursor := skipWithin [] c

/-- Passing over a unit never goes back. -/
theorem length_skipWithin_le (opened : List (Bracket × Nat)) (c : Cursor) :
    (c.skipWithin opened).pending.length ≤ c.pending.length := by
  fun_induction skipWithin opened c with
  | case1 => exact Nat.le_refl _
  | case2 => simp
  | case3 => simp
  | case4 => simp
  | case5 => simp
  | case6 _ _ _ _ _ _ _ _ ih =>
    rw [length_advance] at ih
    omega

/-- A unit takes at least one token, if there is one. -/
theorem length_skipBalanced_lt {c : Cursor} (h : 0 < c.pending.length) :
    c.skipBalanced.pending.length < c.pending.length := by
  unfold skipBalanced
  rw [skipWithin]
  split
  next hnil => simp [hnil] at h
  next t rest hcons =>
    split
    · simp [hcons]
    next heq => simp [nesting] at heq; split at heq <;> contradiction
    next opened heq =>
      split
      · simp [hcons]
      · have := length_skipWithin_le opened c.advance
        rw [length_advance] at this
        omega

/-! ## Runs of units -/

/-- Passes over units up to a place where `isOver` holds, or the end. -/
def skipUntil (isOver : Cursor → Bool) (c : Cursor) : Cursor :=
  if _h : c.pending = [] then c
  else if isOver c then c
  else skipUntil isOver c.skipBalanced
termination_by c.pending.length
decreasing_by exact length_skipBalanced_lt (List.length_pos_iff.mpr _h)

/-- A place at which a statement is over: a semicolon, a closing delimiter or
a new line. -/
def atStatementEnd (c : Cursor) : Bool :=
  c.kind == .semicolon || c.kind.isClosing || c.current.onNewLine

/-- Passes over a statement or declaration that is not modelled. A closing
delimiter cannot start one: it is noted and consumed. -/
def skipStatement (c : Cursor) : Cursor :=
  match c.kind with
  | .closing found => (c.reportHere (.stray found)).advance
  | .endOfFile => c
  | _ => c.skipBalanced.skipUntil atStatementEnd

/-- A token in front of which an expression is over. -/
def endsExpression : Kind → Bool
  | .comma | .semicolon | .closing _ | .endOfFile => true
  | _ => false

/-- Passes over an expression, which ends with its line if `oneLine` is set. -/
def skipExpression (oneLine : Bool) (c : Cursor) : Cursor :=
  if endsExpression c.kind then c.reportHere (.missing .expression)
  else c.skipBalanced.skipUntil
    (fun d => endsExpression d.kind || (oneLine && d.current.onNewLine))

/-- Passes over a parenthesis that continues what stands before it. -/
def skipAdjacentParen (c : Cursor) : Cursor :=
  if c.kind == .opening .paren && !c.current.isSeparated then c.skipBalanced else c

/-- Passes over an attribute: `@name` with an optional argument list. -/
def skipAttribute (c : Cursor) : Cursor :=
  let name := c.advance
  if name.kind.isName then name.advance.skipAdjacentParen
  else name.reportHere (.missing .attributeName)

/-! ## Generic parameter clauses -/

/-- Passes over the rest of a generic clause in which `depth` angle brackets
are open, and which starts at byte `start`. -/
def skipGenericWithin (start depth : Nat) (c : Cursor) : Cursor :=
  if _h : c.pending = [] then c.reportDelimiter start .unclosedGenericClause
  else
    match c.kind with
    | .lessThan => skipGenericWithin start (depth + 1) c.advance
    | .greaterThan =>
      if depth ≤ 1 then c.advance else skipGenericWithin start (depth - 1) c.advance
    | .opening .brace | .closing .brace | .semicolon =>
      c.reportDelimiter start .unclosedGenericClause
    | _ => skipGenericWithin start depth c.skipBalanced
termination_by c.pending.length
decreasing_by
  all_goals have hpos := List.length_pos_iff.mpr _h
  · rw [length_advance]; omega
  · rw [length_advance]; omega
  · exact length_skipBalanced_lt hpos

/-- Passes over a generic clause `<...>`, counting nested angle brackets. -/
def skipGenericClause (c : Cursor) : Cursor := skipGenericWithin c.current.start 0 c

/-! ## Where clauses -/

/-- A token in front of which a declaration's header is over. -/
def endsHeader : Kind → Bool
  | .opening .brace | .closing .brace | .semicolon | .endOfFile => true
  | _ => false

/-- Passes over requirements of a `where` clause. They end at a body, or on a
new line that does not follow a comma. -/
def skipRequirements (afterComma : Bool) (c : Cursor) : Cursor :=
  if _h : c.pending = [] then c
  else if endsHeader c.kind || (c.current.onNewLine && !afterComma) then c
  else skipRequirements (c.kind == .comma) c.skipBalanced
termination_by c.pending.length
decreasing_by exact length_skipBalanced_lt (List.length_pos_iff.mpr _h)

/-- Passes over a `where` clause. -/
def skipWhereClause (c : Cursor) : Cursor := c.advance.skipRequirements true

end Cursor

/-- The parser that moves the cursor and has no result. -/
def Parser.move (f : Cursor → Cursor) : Parser Unit := fun c => ((), f c)

end AnySome
