import Mathlib.Data.List.TakeWhile
import AnySome.Source.Name
import AnySome.Token.Scan

/-!
# Tokens by their first character

The first character of a token decides how the token is read: what the
characters behind it make of it is one of ten functions. A fact about all
tokens is proved form by form, so this is the only place at which
`Lexeme.scan` is opened.

A form says nothing about what stands behind the character. Two texts that
start with the same character are therefore read by the same form, which is
what a fact about two texts needs.

## Main results

* `Lexeme.exists_form` — every character has a form, and is read by it.
-/

namespace AnySome.Lexeme

/-- The function that reads a token, for each character it can start with. -/
inductive Form : Char → (List Char → Lexeme) → Prop where
  | punctuation {c : Char} {k : Kind} (h : punctuation? c = some k) : Form c fun _ => single k
  | hyphen : Form '-' fun cs =>
      if cs.head? = some '>' then ⟨.arrow, 2, true⟩ else single .operatorSign
  | point : Form '.' fun cs =>
      if Name.startsWith ['.', '.'] cs = true then ⟨.ellipsis, 3, true⟩ else single .dot
  | quote : Form '"' fun cs =>
      ⟨.stringLiteral, (Literal.stringExtent 0 ('"' :: cs)).length,
        (Literal.stringExtent 0 ('"' :: cs)).closed⟩
  | pound : Form '#' pound
  | backtick : Form '\x60' backticked
  | digit {c : Char} (h : c.isDigit = true) :
      Form c fun cs => ⟨.numericLiteral, Literal.numberLength c cs + 1, true⟩
  | sign {c : Char} (h : isOperatorSign c = true) (hne : c ≠ '-') :
      Form c fun _ => single .operatorSign
  | name {c : Char} (h : isNameStart c = true) : Form c (word c)
  | unknown {c : Char} : Form c fun _ => single .unknown

theorem scan_punctuation {c : Char} {k : Kind} (h : punctuation? c = some k) (cs : List Char) :
    scan c cs = single k := by
  unfold scan
  rw [h]

theorem scan_hyphen (cs : List Char) : scan '-' cs =
    if cs.head? = some '>' then ⟨.arrow, 2, true⟩ else single .operatorSign := by
  by_cases h : cs.head? = some '>' <;> simp [scan, punctuation?, h, isOperatorSign]

theorem scan_point (cs : List Char) : scan '.' cs =
    if Name.startsWith ['.', '.'] cs = true then ⟨.ellipsis, 3, true⟩ else single .dot := by
  match cs with
  | [] => rfl
  | [b] => simp [scan, punctuation?, Name.startsWith]
  | b :: d :: cs =>
    by_cases hb : b = '.' <;> by_cases hd : d = '.' <;>
      simp [scan, punctuation?, Name.startsWith, hb, hd, Ne.symm]

theorem scan_quote (cs : List Char) : scan '"' cs =
    ⟨.stringLiteral, (Literal.stringExtent 0 ('"' :: cs)).length,
      (Literal.stringExtent 0 ('"' :: cs)).closed⟩ := rfl

theorem scan_pound (cs : List Char) : scan '#' cs = pound cs := rfl

theorem scan_backtick (cs : List Char) : scan '\x60' cs = backticked cs := rfl

/-- Every character has a form, and is read by it. -/
theorem exists_form (c : Char) : ∃ f, Form c f ∧ scan c = f := by
  cases hpunct : punctuation? c with
  | some k => exact ⟨_, .punctuation hpunct, funext (scan_punctuation hpunct)⟩
  | none =>
    by_cases hhyphen : c = '-'
    · subst hhyphen
      exact ⟨_, .hyphen, funext scan_hyphen⟩
    by_cases hpoint : c = '.'
    · subst hpoint
      exact ⟨_, .point, funext scan_point⟩
    by_cases hquote : c = '"'
    · subst hquote
      exact ⟨_, .quote, funext scan_quote⟩
    by_cases hpound : c = '#'
    · subst hpound
      exact ⟨_, .pound, funext scan_pound⟩
    by_cases htick : c = '\x60'
    · subst htick
      exact ⟨_, .backtick, funext scan_backtick⟩
    have hrest (cs : List Char) : scan c cs =
        if c.isDigit then ⟨.numericLiteral, Literal.numberLength c cs + 1, true⟩
        else if isOperatorSign c then single .operatorSign
        else if isNameStart c then word c cs
        else single .unknown := by
      unfold scan
      rw [hpunct]
      dsimp only
      rw [if_neg fun harrow => hhyphen harrow.1, if_neg hpoint, if_neg hquote, if_neg hpound,
        if_neg htick]
    by_cases hdigit : c.isDigit = true
    · exact ⟨_, .digit hdigit, funext fun cs => by rw [hrest, if_pos hdigit]⟩
    by_cases hsign : isOperatorSign c = true
    · exact ⟨_, .sign hsign hhyphen, funext fun cs => by
        rw [hrest, if_neg hdigit, if_pos hsign]⟩
    by_cases hname : isNameStart c = true
    · exact ⟨_, .name hname, funext fun cs => by
        rw [hrest, if_neg hdigit, if_neg hsign, if_pos hname]⟩
    · exact ⟨_, .unknown, funext fun cs => by
        rw [hrest, if_neg hdigit, if_neg hsign, if_neg hname]⟩

/-! ## The parts of the forms -/

theorem isNamePart_of_isNameStart {c : Char} (h : isNameStart c = true) :
    isNamePart c = true := by
  simp only [isNameStart, isNamePart, Char.isAlphanum, Bool.or_eq_true] at h ⊢
  rcases h with ((h | h) | h) | h
  · exact .inl (.inl (.inl (.inl h)))
  · exact .inl (.inl (.inr h))
  · exact .inl (.inr h)
  · exact .inr h

theorem isNamePart_of_isDigit {c : Char} (h : c.isDigit = true) :
    isNamePart c = true := by
  simp [isNamePart, Char.isAlphanum, h]

theorem kind_backticked (cs : List Char) : (backticked cs).kind = .identifier := by
  unfold backticked
  dsimp only
  split <;> rfl

theorem length_backticked_pos (cs : List Char) : 0 < (backticked cs).length := by
  unfold backticked
  dsimp only
  split <;> simp

/-- A character of a name in backticks. -/
def isQuotedPart (c : Char) : Bool := c != '\x60' && c != '\n'

theorem takeWhile_isQuotedPart {body cs : List Char} (h : ∀ c ∈ body, isQuotedPart c = true)
    (hcs : cs = [] ∨ ∃ d ds, cs = d :: ds ∧ isQuotedPart d = false) :
    (body ++ cs).takeWhile (fun c => c != '\x60' && c != '\n') = body := by
  rw [show (fun c => c != '\x60' && c != '\n') = isQuotedPart from rfl,
    List.takeWhile_append_of_pos h]
  rcases hcs with rfl | ⟨d, ds, rfl, hd⟩
  · rw [List.takeWhile_nil, List.append_nil]
  · rw [List.takeWhile_cons, hd, if_neg Bool.false_ne_true, List.append_nil]

theorem backticked_of_closed {body : List Char} (h : ∀ c ∈ body, isQuotedPart c = true)
    (cs : List Char) :
    backticked (body ++ '\x60' :: cs) = ⟨.identifier, body.length + 2, true⟩ := by
  unfold backticked
  rw [takeWhile_isQuotedPart h (.inr ⟨_, cs, rfl, rfl⟩)]
  dsimp only
  rw [List.drop_left]
  rfl

theorem backticked_of_open {body cs : List Char} (h : ∀ c ∈ body, isQuotedPart c = true)
    (hcs : cs = [] ∨ ∃ ds, cs = '\n' :: ds) :
    backticked (body ++ cs) = ⟨.identifier, body.length + 1, false⟩ := by
  unfold backticked
  rcases hcs with rfl | ⟨ds, rfl⟩
  · rw [takeWhile_isQuotedPart h (.inl rfl)]
    dsimp only
    rw [List.drop_left]
  · rw [takeWhile_isQuotedPart h (.inr ⟨_, ds, rfl, rfl⟩)]
    dsimp only
    rw [List.drop_left]
    simp

/-- Up to the end of the name, of its line, or of the text. -/
theorem exists_quotedPart (cs : List Char) :
    ∃ body rest, cs = body ++ rest ∧ (∀ c ∈ body, isQuotedPart c = true) ∧
      ((rest = [] ∨ ∃ ds, rest = '\n' :: ds) ∨ ∃ ds, rest = '\x60' :: ds) := by
  refine ⟨cs.takeWhile isQuotedPart, cs.dropWhile isQuotedPart,
    List.takeWhile_append_dropWhile.symm, fun c hc => List.mem_takeWhile_imp hc, ?_⟩
  have hend := List.head?_dropWhile_not isQuotedPart cs
  cases hrest : cs.dropWhile isQuotedPart with
  | nil => exact .inl (.inl rfl)
  | cons d ds =>
    rw [hrest] at hend
    by_cases hfeed : d = '\n'
    · exact .inl (.inr ⟨ds, by rw [hfeed]⟩)
    · have htick : d = '\x60' := by simpa [isQuotedPart, hfeed] using hend
      exact .inr ⟨ds, by rw [htick]⟩

/-- What a `#` starts is decided by the character behind the run of signs. -/
theorem pound_of_drop {cs tail : List Char} {d : Char}
    (h : cs.drop (Literal.hashes cs) = d :: tail) :
    pound cs =
      let count := Literal.hashes cs + 1
      if d = '"' then
        ⟨.stringLiteral, (Literal.stringExtent count ('"' :: tail)).length,
          (Literal.stringExtent count ('"' :: tail)).closed⟩
      else if d = '/' then
        ⟨.regexLiteral, (Literal.regexRun count (count + 1) tail).length,
          (Literal.regexRun count (count + 1) tail).closed⟩
      else if count = 1 ∧ (d.isAlpha || d == '_') then
        ⟨.poundKeyword, nameLength cs + 1, true⟩
      else single .unknown := by
  unfold pound
  dsimp only
  rw [Nat.add_sub_cancel, h]
  split
  next heq =>
    cases heq
    rw [if_pos rfl]
  next heq =>
    cases heq
    rw [if_neg (by decide), if_pos rfl]
    rfl
  next hquote hslash heq =>
    cases heq
    rw [if_neg hquote, if_neg hslash]
  next heq => contradiction

/-- A `#` with nothing behind its signs starts nothing. -/
theorem pound_of_drop_nil {cs : List Char} (h : cs.drop (Literal.hashes cs) = []) :
    pound cs = single .unknown := by
  unfold pound
  dsimp only
  rw [Nat.add_sub_cancel, h]

theorem kind_pound (cs : List Char) : (pound cs).kind = .stringLiteral ∨
    (pound cs).kind = .regexLiteral ∨ (pound cs).kind = .poundKeyword ∨
      (pound cs).kind = .unknown := by
  cases hdrop : cs.drop (Literal.hashes cs) with
  | nil => simp [pound_of_drop_nil hdrop, single]
  | cons d tail =>
    rw [pound_of_drop hdrop]
    dsimp only
    split
    · exact .inl rfl
    split
    · exact .inr (.inl rfl)
    split
    · exact .inr (.inr (.inl rfl))
    · exact .inr (.inr (.inr rfl))

end AnySome.Lexeme
