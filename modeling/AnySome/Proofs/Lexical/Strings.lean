import AnySome.Proofs.Lexical.Delimiters

/-!
# The grammar of string literals

A string literal holds characters, escapes and interpolations, and an
interpolation holds parentheses and further literals. `Literal.Completes`
spells that out without the automaton: a text completes what is open if it
runs up to the delimiter that closes it, and no further.

A delimiter is recognised by what stands behind it, so a piece cannot be told
from its own characters. A text that completes something, however, holds the
closing delimiter, which is as long as anything that has to be recognised in
front of it. Whatever follows such a text has no part in reading it, and with
that the automaton comes back to what was open around it.

## Main results

* `Literal.run_of_completes` — the automaton reads what completes the innermost
  frame, in front of any text and under any stack.
* `Reader.next_of_completes` — a literal is read as one token, and ends where
  the grammar says it does.
-/

namespace AnySome

namespace Literal

/-! ## The grammar -/

/-- What closes a frame. -/
def Frame.closer : Frame → List Char
  | .quoted count multiline => Literal.closer count multiline
  | .group => [')']

/-- The text completes what is open, through the delimiter that closes it. -/
inductive Completes : Frame → List Char → Prop where
  /-- The end of a literal. -/
  | closing (count : Nat) (multiline : Bool) :
      Completes (.quoted count multiline) (closer count multiline)
  /-- A character of a literal, at which neither the end nor an escape starts. -/
  | plain {count : Nat} {multiline : Bool} {c : Char} {cs : List Char}
      (hcloser : ¬closer count multiline <+: c :: cs) (hescape : ¬escaper count <+: c :: cs)
      (hline : multiline = false → Trivia.isLineBreak c = false) :
      Completes (.quoted count multiline) cs → Completes (.quoted count multiline) (c :: cs)
  /-- An escaped character. -/
  | escape {count : Nat} {multiline : Bool} {c : Char} {cs : List Char} (hparen : c ≠ '(')
      (hline : multiline = false → Trivia.isLineBreak c = false) :
      Completes (.quoted count multiline) cs →
        Completes (.quoted count multiline) (escaper count ++ c :: cs)
  /-- An interpolation. -/
  | interpolation {count : Nat} {multiline : Bool} {inner cs : List Char} :
      Completes .group inner → Completes (.quoted count multiline) cs →
        Completes (.quoted count multiline) (escaper count ++ '(' :: (inner ++ cs))
  /-- The end of an interpolation, or of parentheses in one. -/
  | groupEnd : Completes .group [')']
  | ordinary {c : Char} {cs : List Char} (hc : c ∉ ['(', ')', '"', '#']) :
      Completes .group cs → Completes .group (c :: cs)
  /-- Parentheses in an interpolation. -/
  | nested {inner cs : List Char} :
      Completes .group inner → Completes .group cs → Completes .group ('(' :: (inner ++ cs))
  /-- A literal in an interpolation, which is not taken for one of many lines. -/
  | literal {count : Nat} {multiline : Bool} {body cs : List Char}
      (hquotes : ¬LooksMultiline multiline (body ++ cs)) :
      Completes (.quoted count multiline) body → Completes .group cs →
        Completes .group (opener count multiline ++ (body ++ cs))
  /-- Signs that belong to no literal. -/
  | signs {count : Nat} {cs : List Char} (hcount : 0 < count)
      (hsign : cs.head? ≠ some '#') (hquote : cs.head? ≠ some '"') :
      Completes .group cs → Completes .group (List.replicate count '#' ++ cs)

/-! ## What follows has no part in it -/

namespace Completes

variable {frame : Frame} {cs : List Char}

theorem length_closer_le (h : Completes frame cs) : frame.closer.length ≤ cs.length := by
  induction h with
  | closing => exact Nat.le_refl _
  | groupEnd => exact Nat.le_refl _
  | plain _ _ _ _ ih => exact Nat.le_succ_of_le ih
  | ordinary _ _ ih => exact Nat.le_succ_of_le ih
  | escape _ _ _ ih =>
    simp only [List.length_append, List.length_cons]
    omega
  | interpolation _ _ _ ih =>
    simp only [List.length_append, List.length_cons]
    omega
  | nested _ _ _ ih =>
    simp only [List.length_append, List.length_cons]
    omega
  | literal _ _ _ _ ih =>
    simp only [List.length_append]
    omega
  | signs _ _ _ _ ih =>
    simp only [List.length_append]
    omega

theorem ne_nil (h : Completes frame cs) : cs ≠ [] := by
  rintro rfl
  have hle := h.length_closer_le
  cases frame with
  | quoted count multiline =>
    obtain ⟨more, hquotes⟩ := exists_quotes_eq multiline
    simp [Frame.closer, hquotes] at hle
  | group => simp [Frame.closer] at hle

theorem head?_append (h : Completes frame cs) (r : List Char) :
    (cs ++ r).head? = cs.head? := by
  obtain ⟨c, tail, rfl⟩ := List.exists_cons_of_ne_nil h.ne_nil
  rfl

/-- No closing delimiter reaches beyond the end. -/
theorem not_closer_prefix {count : Nat} {multiline : Bool} {c : Char}
    (h : Completes (.quoted count multiline) cs) (hcloser : ¬closer count multiline <+: c :: cs)
    (r : List Char) : ¬closer count multiline <+: c :: (cs ++ r) := by
  have hle : (closer count multiline).length ≤ (c :: cs).length :=
    Nat.le_succ_of_le h.length_closer_le
  exact fun hlonger =>
    hcloser (List.prefix_of_prefix_length_le hlonger (List.prefix_append (c :: cs) r) hle)

/-- No escape reaches beyond the end. -/
theorem not_escaper_prefix {count : Nat} {multiline : Bool} {c : Char}
    (h : Completes (.quoted count multiline) cs) (hescape : ¬escaper count <+: c :: cs)
    (r : List Char) : ¬escaper count <+: c :: (cs ++ r) := by
  have hcloser : (closer count multiline).length ≤ cs.length := h.length_closer_le
  have hle : (escaper count).length ≤ (c :: cs).length := by
    rw [length_closer] at hcloser
    simp only [escaper, List.length_cons, List.length_replicate]
    omega
  exact fun hlonger =>
    hescape (List.prefix_of_prefix_length_le hlonger (List.prefix_append (c :: cs) r) hle)

/-- A literal in an interpolation shows its quotes before the interpolation
ends. -/
theorem not_looksMultiline {count : Nat} {multiline : Bool} {body : List Char}
    (hbody : Completes (.quoted count multiline) body) (h : Completes .group cs)
    (hquotes : ¬LooksMultiline multiline (body ++ cs)) (r : List Char) :
    ¬LooksMultiline multiline (body ++ (cs ++ r)) := by
  have hle : ['"', '"'].length ≤ (body ++ cs).length := by
    have hpos := List.length_pos_iff.mpr hbody.ne_nil
    have hpos' := List.length_pos_iff.mpr h.ne_nil
    simp only [List.length_append, List.length_cons, List.length_nil]
    omega
  rintro ⟨hone, htwo⟩
  rw [← List.append_assoc] at htwo
  exact hquotes ⟨hone,
    List.prefix_of_prefix_length_le htwo (List.prefix_append (body ++ cs) r) hle⟩

end Completes

/-! ## The automaton reads the grammar -/

/-- The automaton reads what completes the innermost frame, and comes back to
the frames around it. -/
theorem run_of_completes {frame : Frame} {cs : List Char} (h : Completes frame cs)
    (outer : List Frame) (seen : Nat) (r : List Char) :
    run (frame :: outer) seen (cs ++ r) = run outer (seen + cs.length) r := by
  induction h generalizing outer seen r with
  | closing count multiline => exact run_closer r
  | plain hcloser hescape hline hcs ih =>
    rw [List.cons_append,
      run_plain (hcs.not_escaper_prefix hescape r) (hcs.not_closer_prefix hcloser r) hline, ih,
      List.length_cons, Nat.add_assoc, Nat.add_comm 1]
  | escape hparen _ _ ih =>
    rw [List.append_assoc, List.cons_append, run_escaper, if_neg hparen, ih]
    congr 1
    simp only [escaper, List.length_append, List.length_cons, List.length_replicate]
    omega
  | interpolation _ _ ihinner ih =>
    rw [List.append_assoc, List.cons_append, run_escaper, if_pos rfl, List.append_assoc, ihinner,
      ih]
    congr 1
    simp only [escaper, List.length_append, List.length_cons, List.length_replicate]
    omega
  | groupEnd => exact run_groupEnd r
  | ordinary hc _ ih =>
    rw [List.cons_append, run_ordinary hc, ih, List.length_cons, Nat.add_assoc, Nat.add_comm 1]
  | nested _ _ ihinner ih =>
    rw [List.cons_append, List.append_assoc, run_nested, ihinner, ih]
    congr 1
    simp only [List.length_append, List.length_cons]
    omega
  | literal hquotes hbody hcs ihbody ih =>
    have hnot := hbody.not_looksMultiline hcs hquotes r
    rw [List.append_assoc, List.append_assoc, run_opener hnot, ihbody, ih, List.length_append,
      List.length_append, Nat.add_assoc, Nat.add_assoc]
  | signs hcount hsign hquote hcs ih =>
    rw [← hcs.head?_append r] at hsign hquote
    rw [List.append_assoc, run_signs hcount hsign hquote, ih, List.length_append,
      List.length_replicate, Nat.add_assoc]

end Literal

/-! ## Literals -/

namespace Reader

open Literal

/-- A literal of the grammar is read as one token that ends with it, whatever
follows, unless what follows makes it look like one of many lines. -/
theorem next_of_completes (t : Token) {count : Nat} {multiline : Bool} {cs r : List Char}
    (hcs : Completes (.quoted count multiline) cs)
    (hquotes : ¬LooksMultiline multiline (cs ++ r)) :
    Reader.next ⟨t, opener count multiline ++ cs ++ r⟩ =
      ⟨⟨[], .stringLiteral, String.ofList (opener count multiline ++ cs), t.stop, true⟩, r⟩ := by
  have hrun : run [.quoted count multiline] (opener count multiline).length (cs ++ r) =
      ⟨(opener count multiline).length + cs.length, true⟩ := by
    rw [run_of_completes hcs, run]
  have hnext := next_opener hquotes hrun t
  rw [List.take_left, List.drop_left] at hnext
  rw [List.append_assoc]
  exact hnext

/-- A literal with a raw literal in its interpolation, in front of a point. -/
theorem next_of_completes_nested :
    Completes (.quoted 0 false) ['\\', '(', '(', '#', '"', 'é', ')', '"', '#', ')', ')', '"'] ∧
      ¬LooksMultiline false
        (['\\', '(', '(', '#', '"', 'é', ')', '"', '#', ')', ')', '"'] ++ ['.']) ∧
      Reader.next ⟨⟨[], .dot, ".", 0, true⟩,
          opener 0 false ++ ['\\', '(', '(', '#', '"', 'é', ')', '"', '#', ')', ')', '"'] ++
            ['.']⟩ =
        ⟨⟨[], .stringLiteral, "\"\\((#\"é)\"#))\"", 1, true⟩, ['.']⟩ := by
  have hraw : Completes (.quoted 1 false) ['é', ')', '"', '#'] :=
    .plain (by decide) (by decide) (by decide)
      (.plain (by decide) (by decide) (by decide) (.closing 1 false))
  have hparens : Completes .group (opener 1 false ++ (['é', ')', '"', '#'] ++ [')'])) :=
    .literal (by decide) hraw .groupEnd
  have hinner : Completes .group ['(', '#', '"', 'é', ')', '"', '#', ')', ')'] :=
    .nested hparens .groupEnd
  have hall : Completes (.quoted 0 false)
      ['\\', '(', '(', '#', '"', 'é', ')', '"', '#', ')', ')', '"'] :=
    .interpolation hinner (.closing 0 false)
  exact ⟨hall, by decide, next_of_completes ⟨[], .dot, ".", 0, true⟩ hall (by decide)⟩

end Reader

end AnySome
