import AnySome.Proofs.Lexical.Form

/-!
# How far reading a token looks ahead

A token that ends in front of a hinge, a character other than `#`, `"` and
`.`, does not depend on what stands behind that character. Reading looks ahead
along runs of `#`, at up to three quotes and at up to three dots, and at one
character otherwise. So whatever is decided in front of a hinge is decided by
the characters up to the hinge.

For string literals this is a statement about the automaton: as long as it
stays in front of the hinge, it makes the same moves.

## Main results

* `Literal.run_hinge` — the automaton does not look past a hinge.
* `Lexeme.scan_hinge` — nor does reading a token.
* `Trivia.scan?_hinge` — nor does the search for a gap.
-/

namespace AnySome

/-- A character that reading a token in front of it never looks past. -/
def isHinge (c : Char) : Bool := c != '#' && c != '"' && c != '.'

theorem ne_of_isHinge {c d : Char} (hc : isHinge c = true) (hd : isHinge d = false) : c ≠ d := by
  rintro rfl
  rw [hc] at hd
  contradiction

section

variable {A Y : List Char} {c : Char}

theorem drop_append_cons {n : Nat} (h : n ≤ A.length) :
    (A ++ c :: Y).drop n = A.drop n ++ c :: Y :=
  List.drop_append_of_le_length h

/-- A run that ends in front of a character is not changed by what stands
behind that character. -/
theorem takeWhile_append_cons {p : Char → Bool}
    (h : ((A ++ c :: Y).takeWhile p).length ≤ A.length) (Y' : List Char) :
    (A ++ c :: Y').takeWhile p = (A ++ c :: Y).takeWhile p := by
  induction A with
  | nil =>
    cases hp : p c with
    | false => simp [hp]
    | true => simp [hp] at h
  | cons a A ih =>
    cases hp : p a with
    | false => simp [hp]
    | true =>
      simp only [List.cons_append, List.takeWhile_cons, hp, if_true, List.length_cons,
        Nat.add_le_add_iff_right] at h ⊢
      rw [ih h]

theorem length_takeWhile_append_cons {p : Char → Bool} (h : p c = false) :
    ((A ++ c :: Y).takeWhile p).length ≤ A.length := by
  induction A with
  | nil => simp [h]
  | cons a A ih =>
    cases hp : p a with
    | false => simp [hp]
    | true =>
      simp only [List.cons_append, List.takeWhile_cons, hp, if_true, List.length_cons]
      omega

end

namespace Literal

variable {A Y : List Char} {c : Char}

/-! ## Runs of signs and quotes -/

theorem hashes_le (hc : isHinge c = true) : hashes (A ++ c :: Y) ≤ A.length := by
  refine length_takeWhile_append_cons ?_
  simpa using ne_of_isHinge hc (d := '#') (by decide)

theorem hashes_hinge (hc : isHinge c = true) (Y' : List Char) :
    hashes (A ++ c :: Y') = hashes (A ++ c :: Y) := by
  unfold hashes
  rw [takeWhile_append_cons (hashes_le hc) Y']

theorem startsWithTripleQuote_cons (a b d : Char) (cs : List Char) :
    startsWithTripleQuote (a :: b :: d :: cs) = (a == '"' && b == '"' && d == '"') := by
  unfold startsWithTripleQuote
  split
  next heq =>
    cases heq
    rfl
  next hne =>
    symm
    rw [Bool.eq_false_iff]
    intro hall
    simp only [Bool.and_eq_true, beq_iff_eq] at hall
    obtain ⟨⟨rfl, rfl⟩, rfl⟩ := hall
    exact hne cs rfl

theorem startsWithTripleQuote_hinge (hc : isHinge c = true) (Y' : List Char) :
    startsWithTripleQuote (A ++ c :: Y') = startsWithTripleQuote (A ++ c :: Y) := by
  have hquote := ne_of_isHinge hc (d := '"') (by decide)
  match A with
  | [] => simp [startsWithTripleQuote, hquote]
  | [a] => simp [startsWithTripleQuote, hquote]
  | [a, b] => simp [startsWithTripleQuote, hquote]
  | a :: b :: d :: A => simp only [List.cons_append, startsWithTripleQuote_cons]

/-- The quotes that a literal opens with stand in front of the hinge. -/
theorem opening_le (hc : isHinge c = true) (count : Nat) :
    (opening count ('"' :: (A ++ c :: Y))).2 ≤ A.length + 1 := by
  have hquote := ne_of_isHinge hc (d := '"') (by decide)
  unfold opening
  split
  next htriple =>
    match A with
    | [] => simp [startsWithTripleQuote, hquote] at htriple
    | [a] => simp [startsWithTripleQuote, hquote] at htriple
    | a :: b :: A => simp
  · simp

theorem opening_hinge (hc : isHinge c = true) (count : Nat) (Y' : List Char) :
    opening count ('"' :: (A ++ c :: Y')) = opening count ('"' :: (A ++ c :: Y)) := by
  have htriple := startsWithTripleQuote_hinge (A := '"' :: A) (Y := Y) hc Y'
  unfold opening
  rw [← List.cons_append, htriple]
  rfl

/-! ## The automaton -/

theorem quotedMove_hinge (hc : isHinge c = true) (count : Nat) (multiline : Bool)
    (outer : List Frame) (a : Char) (Y' : List Char) :
    quotedMove count multiline outer a (A ++ c :: Y') =
      quotedMove count multiline outer a (A ++ c :: Y) := by
  have hhashes := hashes_hinge (A := A) (Y := Y) hc Y'
  have htriple := startsWithTripleQuote_hinge (A := a :: A) (Y := Y) hc Y'
  rw [List.cons_append, List.cons_append] at htriple
  unfold quotedMove
  rw [hhashes, htriple]
  by_cases hescape : a = '\\' ∧ count ≤ hashes (A ++ c :: Y)
  · -- the character behind the escape is the hinge at the latest
    have hle := Nat.le_trans hescape.2 (hashes_le hc)
    dsimp only
    rw [if_pos hescape, if_pos hescape, drop_append_cons hle, drop_append_cons hle]
    cases A.drop count with
    | nil => by_cases hparen : c = '(' <;> simp [hparen]
    | cons b B => by_cases hparen : b = '(' <;> simp [hparen]
  · dsimp only
    rw [if_neg hescape, if_neg hescape]
    have hdrop : startsWithTripleQuote (a :: (A ++ c :: Y)) = true →
        hashes ((A ++ c :: Y').drop 2) = hashes ((A ++ c :: Y).drop 2) := by
      intro hopen
      have hquote := ne_of_isHinge hc (d := '"') (by decide)
      match A with
      | [] => simp [startsWithTripleQuote, hquote] at hopen
      | [b] => simp [startsWithTripleQuote, hquote] at hopen
      | b :: d :: A => exact hashes_hinge hc Y'
    by_cases hopen : startsWithTripleQuote (a :: (A ++ c :: Y)) = true
    · rw [hdrop hopen]
    · simp [hopen]

theorem groupMove_hinge (hc : isHinge c = true) (outer : List Frame) (a : Char)
    (Y' : List Char) :
    groupMove outer a (A ++ c :: Y') = groupMove outer a (A ++ c :: Y) := by
  have hle := hashes_le (A := A) (Y := Y) hc
  unfold groupMove
  dsimp only
  rw [hashes_hinge (Y := Y) hc Y', drop_append_cons hle, drop_append_cons hle]
  have hquoted : a = '"' →
      opening 0 (a :: (A ++ c :: Y')) = opening 0 (a :: (A ++ c :: Y)) := by
    rintro rfl
    exact opening_hinge hc 0 Y'
  by_cases hquote : a = '"'
  · rw [hquoted hquote]
    subst hquote
    rfl
  · simp only [if_neg hquote]
    cases A.drop (hashes (A ++ c :: Y)) with
    | nil =>
      have hne := ne_of_isHinge hc (d := '"') (by decide)
      simp [hne]
    | cons b B =>
      by_cases hb : b = '"'
      · subst hb
        simp only [List.cons_append]
        rw [opening_hinge (Y := Y) hc _ Y']
      · simp [hb]

theorem move_hinge (hc : isHinge c = true) (frame : Frame) (outer : List Frame) (a : Char)
    (Y' : List Char) :
    move frame outer a (A ++ c :: Y') = move frame outer a (A ++ c :: Y) := by
  cases frame with
  | quoted count multiline => exact quotedMove_hinge hc count multiline outer a Y'
  | group => exact groupMove_hinge hc outer a Y'

/-- The automaton does not give characters back. -/
theorem le_length_run (stack : List Frame) (seen : Nat) (cs : List Char) :
    seen ≤ (run stack seen cs).length := by
  fun_induction run stack seen cs with
  | case1 => exact Nat.le_refl _
  | case2 => exact Nat.le_refl _
  | case3 => exact Nat.le_refl _
  | case4 => omega

/-- A run that closes its literal in front of a hinge does not depend on what
stands behind the hinge. -/
theorem run_hinge (hc : isHinge c = true) {stack : List Frame} {seen n : Nat}
    (h : run stack seen (A ++ c :: Y) = ⟨n, true⟩) (hn : n ≤ seen + A.length)
    (Y' : List Char) : run stack seen (A ++ c :: Y') = ⟨n, true⟩ := by
  induction hlen : A.length using Nat.strongRecOn generalizing A stack seen with
  | ind len ih =>
  cases stack with
  | nil =>
    rw [run] at h ⊢
    exact h
  | cons frame outer =>
    cases A with
    | nil =>
      -- the hinge itself would be consumed
      rw [List.nil_append, run] at h
      split at h
      · cases h
      next extra stack' hmove =>
        have hle := le_length_run stack' (seen + 1 + extra) (Y.drop extra)
        rw [h] at hle
        simp only [List.length_nil] at hn
        simp only at hle
        omega
    | cons a A =>
      rw [List.cons_append, run] at h ⊢
      rw [move_hinge (Y := Y) hc]
      cases hmove : move frame outer a (A ++ c :: Y) with
      | stop =>
        rw [hmove] at h
        cases h
      | next extra stack' =>
        rw [hmove] at h
        dsimp only at h ⊢
        have hle := le_length_run stack' (seen + 1 + extra) ((A ++ c :: Y).drop extra)
        rw [h] at hle
        simp only [List.length_cons] at hn hle hlen
        have hextra : extra ≤ A.length := by omega
        rw [drop_append_cons hextra] at h ⊢
        have hdrop : (A.drop extra).length = A.length - extra := List.length_drop
        exact ih (A.drop extra).length (by omega) h (by omega) rfl

theorem stringExtent_hinge (hc : isHinge c = true) {count n : Nat}
    (h : stringExtent count ('"' :: (A ++ c :: Y)) = ⟨n, true⟩)
    (hn : n ≤ count + 1 + A.length) (Y' : List Char) :
    stringExtent count ('"' :: (A ++ c :: Y')) = ⟨n, true⟩ := by
  have hle := opening_le (A := A) (Y := Y) hc count
  unfold stringExtent at h ⊢
  rw [opening_hinge (Y := Y) hc]
  generalize opening count ('"' :: (A ++ c :: Y)) = found at h hle ⊢
  obtain ⟨frame, quotes⟩ := found
  dsimp only at h hle ⊢
  rw [← List.cons_append] at h ⊢
  have hdrop : (('"' :: A).drop quotes).length = A.length + 1 - quotes := by simp
  rw [drop_append_cons (by simpa using hle)] at h ⊢
  exact run_hinge hc h (by omega) Y'

theorem le_length_regexRun (count seen : Nat) (cs : List Char) :
    seen ≤ (regexRun count seen cs).length := by
  fun_induction regexRun count seen cs with
  | case1 => exact Nat.le_refl _
  | case2 => simp only; omega
  | case3 => omega

theorem regexRun_hinge (hc : isHinge c = true) {count seen n : Nat}
    (h : regexRun count seen (A ++ c :: Y) = ⟨n, true⟩) (hn : n ≤ seen + A.length)
    (Y' : List Char) : regexRun count seen (A ++ c :: Y') = ⟨n, true⟩ := by
  induction A generalizing seen with
  | nil =>
    have hle : seen + 1 ≤ (regexRun count seen (c :: Y)).length := by
      rw [regexRun]
      split
      · simp only
        omega
      · exact le_length_regexRun _ _ _
    rw [List.nil_append] at h
    rw [h] at hle
    simp only [List.length_nil] at hn hle
    omega
  | cons a A ih =>
    rw [List.cons_append, regexRun] at h ⊢
    rw [hashes_hinge (Y := Y) hc]
    split
    next hclose =>
      rw [if_pos hclose] at h
      exact h
    next hopen =>
      rw [if_neg hopen] at h
      exact ih h (by simp only [List.length_cons] at hn; omega)

/-! ## Numbers -/

theorem numberLength_hinge (hc : isHinge c = true) {last : Char}
    (h : numberLength last (A ++ c :: Y) ≤ A.length) (Y' : List Char) :
    numberLength last (A ++ c :: Y') = numberLength last (A ++ c :: Y) := by
  have hdot := ne_of_isHinge hc (d := '.') (by decide)
  induction A generalizing last with
  | nil =>
    simp only [List.nil_append, numberLength, List.length_nil] at h ⊢
    split at h
    · omega
    next hstop =>
      rw [if_neg hstop, if_neg]
      simpa [hdot] using hstop
  | cons a A ih =>
    have hdigit : startsWithDigit (A ++ c :: Y') = startsWithDigit (A ++ c :: Y) := by
      cases A <;> rfl
    simp only [List.cons_append, numberLength, List.length_cons] at h ⊢
    rw [hdigit]
    split at h
    next hmore =>
      rw [if_pos hmore, if_pos hmore, ih (by omega)]
    next hstop => rw [if_neg hstop, if_neg hstop]

end Literal

/-! ## Gaps and tokens -/

/-- Whether a gap begins is decided by two characters. -/
theorem Trivia.scan?_hinge {A Y : List Char} {a c : Char}
    (h : Trivia.scan? (a :: (A ++ c :: Y)) = none) (Y' : List Char) :
    Trivia.scan? (a :: (A ++ c :: Y')) = none := by
  unfold Trivia.scan? at h ⊢
  dsimp only at h ⊢
  split at h
  · contradiction
  next hbreak =>
    rw [if_neg hbreak]
    split at h
    · contradiction
    next hblank =>
      rw [if_neg hblank]
      split at h
      next hslash =>
        rw [if_pos hslash]
        cases A with
        | nil =>
          simp only [List.nil_append] at h ⊢
          split at h <;> simp_all
        | cons b A =>
          simp only [List.cons_append] at h ⊢
          split at h <;> simp_all
      next hslash => rw [if_neg hslash]

namespace Lexeme

variable {A Y : List Char} {c : Char}

theorem backticked_hinge {l : Lexeme} (h : backticked (A ++ c :: Y) = l)
    (hclosed : l.closed = true) (hl : l.length ≤ A.length + 1) (Y' : List Char) :
    backticked (A ++ c :: Y') = l := by
  unfold backticked at h ⊢
  dsimp only at h ⊢
  generalize hp : (fun d : Char => d != '\x60' && d != '\n') = p at h ⊢
  split at h
  next tail hdrop =>
    have hbody : ((A ++ c :: Y).takeWhile p).length < A.length := by
      rw [← h] at hl
      simp only at hl
      omega
    rw [takeWhile_append_cons (Nat.le_of_lt hbody)]
    rw [drop_append_cons (Nat.le_of_lt hbody)] at hdrop ⊢
    cases hrest : A.drop ((A ++ c :: Y).takeWhile p).length with
    | nil =>
      rw [List.drop_eq_nil_iff] at hrest
      omega
    | cons b B =>
      rw [hrest, List.cons_append] at hdrop
      cases hdrop
      exact h
  next =>
    rw [← h] at hclosed
    contradiction

theorem pound_hinge (hc : isHinge c = true) {l : Lexeme} (h : pound (A ++ c :: Y) = l)
    (hclosed : l.closed = true) (hl : l.length ≤ A.length + 1) (Y' : List Char) :
    pound (A ++ c :: Y') = l := by
  have hle := Literal.hashes_le (A := A) (Y := Y) hc
  have hhashes := Literal.hashes_hinge (A := A) (Y := Y) hc Y'
  have hdrop := drop_append_cons (c := c) (Y := Y) hle
  have hdrop' := drop_append_cons (c := c) (Y := Y') hle
  rw [← hhashes] at hdrop'
  have hlength : (A.drop (Literal.hashes (A ++ c :: Y))).length =
      A.length - Literal.hashes (A ++ c :: Y) := List.length_drop
  have hword : nameLength (A ++ c :: Y) + 1 ≤ A.length + 1 →
      nameLength (A ++ c :: Y') = nameLength (A ++ c :: Y) := by
    intro hle
    unfold nameLength
    rw [takeWhile_append_cons (Nat.le_of_succ_le_succ hle)]
  rw [hhashes] at hdrop'
  generalize hn : Literal.hashes (A ++ c :: Y) = n at *
  cases hrest : A.drop n with
  | nil =>
    rw [hrest, List.nil_append] at hdrop hdrop'
    rw [hrest, List.length_nil] at hlength
    rw [pound_of_drop (by rw [hn]; exact hdrop), hn] at h
    rw [pound_of_drop (by rw [hhashes]; exact hdrop'), hhashes]
    dsimp only at h ⊢
    rw [if_neg (ne_of_isHinge hc (by decide))] at h ⊢
    by_cases hslash : c = '/'
    · -- the regular expression would take the hinge
      have hregex := Literal.le_length_regexRun (n + 1) (n + 1 + 1) Y
      rw [if_pos hslash] at h
      rw [← h] at hl
      simp only at hl
      omega
    rw [if_neg hslash] at h ⊢
    by_cases hdirective : n + 1 = 1 ∧ (c.isAlpha || c == '_') = true
    · rw [if_pos hdirective] at h ⊢
      rw [← h] at hl
      rw [hword hl]
      exact h
    · rw [if_neg hdirective] at h ⊢
      exact h
  | cons d D =>
    rw [hrest, List.cons_append] at hdrop hdrop'
    rw [hrest, List.length_cons] at hlength
    rw [pound_of_drop (by rw [hn]; exact hdrop), hn] at h
    rw [pound_of_drop (by rw [hhashes]; exact hdrop'), hhashes]
    dsimp only at h ⊢
    by_cases hquote : d = '"'
    · rw [if_pos hquote] at h ⊢
      have hstring : Literal.stringExtent (n + 1) ('"' :: (D ++ c :: Y)) = ⟨l.length, true⟩ := by
        rw [← hclosed, ← h]
      rw [Literal.stringExtent_hinge hc hstring (by omega) Y', ← h, hstring]
    rw [if_neg hquote] at h ⊢
    by_cases hslash : d = '/'
    · rw [if_pos hslash] at h ⊢
      have hregex : Literal.regexRun (n + 1) (n + 1 + 1) (D ++ c :: Y) = ⟨l.length, true⟩ := by
        rw [← hclosed, ← h]
      rw [Literal.regexRun_hinge hc hregex (by omega) Y', ← h, hregex]
    rw [if_neg hslash] at h ⊢
    by_cases hdirective : n + 1 = 1 ∧ (d.isAlpha || d == '_') = true
    · rw [if_pos hdirective] at h ⊢
      rw [← h] at hl
      rw [hword hl]
      exact h
    · rw [if_neg hdirective] at h ⊢
      exact h

/-- A token that ends in front of a hinge does not depend on what stands behind
the hinge. -/
theorem scan_hinge (hc : isHinge c = true) {a : Char} {l : Lexeme}
    (h : scan a (A ++ c :: Y) = l) (hclosed : l.closed = true) (hl : l.length ≤ A.length + 1)
    (Y' : List Char) : scan a (A ++ c :: Y') = l := by
  obtain ⟨f, hform, hscan⟩ := exists_form a
  rw [hscan] at h ⊢
  cases hform with
  | punctuation => exact h
  | hyphen =>
    have hhead : (A ++ c :: Y').head? = (A ++ c :: Y).head? := by cases A <;> rfl
    dsimp only
    rw [hhead]
    exact h
  | point =>
    have hdot : ('.' == c) = false :=
      beq_eq_false_iff_ne.mpr (ne_of_isHinge hc (by decide)).symm
    have hdots : Name.startsWith ['.', '.'] (A ++ c :: Y') =
        Name.startsWith ['.', '.'] (A ++ c :: Y) := by
      match A with
      | [] => simp [Name.startsWith, hdot]
      | [b] => simp [Name.startsWith, hdot]
      | b :: d :: A => simp [Name.startsWith]
    dsimp only
    rw [hdots]
    exact h
  | quote =>
    dsimp only at h ⊢
    have hstring : Literal.stringExtent 0 ('"' :: (A ++ c :: Y)) = ⟨l.length, true⟩ := by
      rw [← hclosed, ← h]
    rw [Literal.stringExtent_hinge hc hstring (by omega) Y', ← h, hstring]
  | pound => exact pound_hinge hc h hclosed hl Y'
  | backtick => exact backticked_hinge h hclosed hl Y'
  | digit =>
    have hlength : Literal.numberLength a (A ++ c :: Y) ≤ A.length := by
      rw [← h] at hl
      exact Nat.le_of_succ_le_succ hl
    dsimp only
    rw [Literal.numberLength_hinge hc hlength]
    exact h
  | sign => exact h
  | name =>
    have hlength : ((A ++ c :: Y).takeWhile isNamePart).length ≤ A.length := by
      rw [← h] at hl
      exact Nat.le_of_succ_le_succ hl
    unfold word at h ⊢
    rw [takeWhile_append_cons hlength]
    exact h
  | unknown => exact h

end Lexeme

end AnySome
