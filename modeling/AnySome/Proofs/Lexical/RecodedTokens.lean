import AnySome.Proofs.Lexical.Gap
import AnySome.Proofs.Lexical.Recoding

/-!
# Tokens in another coding

What stands at a place is decided by characters that are looked for, and reaches
as far in another coding as it does in the text: strings, and with them regular
expressions, numbers, names, directive words and block comments. A reserved word
is one in every coding, since only its own spelling is coded as it.

Names in backticks and line comments are left out. They end at a line feed, and
go on behind a carriage return, so what becomes of the ends of lines decides
how far they reach.

## Main results

* `Trivia.blockExtent_write`, `Trivia.scan?_write_none` — block comments, and
  where no gap begins.
* `Lexeme.scan_write` — all tokens but the names in backticks.
-/

namespace AnySome

/-! ## Outside ASCII -/

theorem le_of_not_telling {c : Char} (hc : ¬Telling c) (hline : Trivia.isLineBreak c = false) :
    0x80 ≤ c.toNat :=
  Nat.le_of_not_lt fun h => hc ⟨h, hline⟩

theorem telling_of_isAlphanum {c : Char} (h : c.isAlphanum = true) : Telling c := by
  have hlt : c.toNat < 0x80 := by
    delta Char.isAlphanum Char.isAlpha Char.isUpper Char.isLower Char.isDigit at h
    simp only [Bool.or_eq_true, Bool.and_eq_true, decide_eq_true_eq, ge_iff_le,
      UInt32.le_iff_toNat_le, Char.reduceVal, UInt32.reduceToNat] at h
    have hcode : c.toNat = c.val.toNat := rfl
    omega
  have hline : Trivia.isLineBreak c = false := by
    rw [Bool.eq_false_iff]
    intro hbreak
    rcases Trivia.isLineBreak_iff.mp hbreak with rfl | rfl <;> exact absurd h (by decide)
  exact ⟨hlt, hline⟩

theorem telling_of_isAlpha {c : Char} (h : c.isAlpha = true) : Telling c :=
  telling_of_isAlphanum (by simp [Char.isAlphanum, h])

theorem telling_of_isDigit {c : Char} (h : c.isDigit = true) : Telling c :=
  telling_of_isAlphanum (by simp [Char.isAlphanum, h])

/-! ## Words -/

section Words

variable (r : Recoding)

/-- Only its own spelling is coded as a text that is looked for. -/
theorem Recoding.write_eq_iff {cs word : List Char} (hword : ∀ c ∈ word, Telling c) :
    r.write cs = word ↔ cs = word := by
  constructor
  · intro h
    have hprefix : word <+: r.write cs := ⟨[], by rw [List.append_nil, h]⟩
    obtain ⟨back, rfl⟩ := (r.prefix_write_iff hword).mp hprefix
    rw [r.write_append, r.write_of_telling hword, List.append_right_eq_self] at h
    cases back with
    | nil => rw [List.append_nil]
    | cons c back => simp [r.code_ne_nil c] at h
  · rintro rfl
    exact r.write_of_telling hword

theorem Keyword.telling_spelling (k : Keyword) : ∀ c ∈ k.spelling.toList, Telling c := by
  have hall : (k.spelling.toList.all fun c => decide (Telling c)) = true := by
    cases k <;> decide +kernel
  simpa using hall

theorem Kind.ofWord_write (cs : List Char) :
    ofWord (String.ofList (r.write cs)) = ofWord (String.ofList cs) := by
  have hspelling : (fun k => k.spelling == String.ofList (r.write cs)) =
      fun k : Keyword => k.spelling == String.ofList cs := by
    funext k
    have hword : r.write cs = k.spelling.toList ↔ cs = k.spelling.toList :=
      r.write_eq_iff k.telling_spelling
    rw [Bool.eq_iff_iff, beq_iff_eq, beq_iff_eq, ← String.toList_inj, ← String.toList_inj,
      String.toList_ofList, String.toList_ofList, eq_comm, hword, eq_comm]
  unfold ofWord Keyword.ofSpelling?
  rw [hspelling]

theorem Lexeme.isNamePart_of_le {c : Char} (h : 0x80 ≤ c.toNat) : isNamePart c = true := by
  simp [isNamePart, h]

theorem Lexeme.isNamePart_of_isLineBreak {c : Char} (h : Trivia.isLineBreak c = true) :
    isNamePart c = false := by
  rcases Trivia.isLineBreak_iff.mp h with rfl | rfl <;> decide

theorem Lexeme.isNamePart_eq {c d : Char} (h : d ∈ r.code c) : isNamePart d = isNamePart c := by
  by_cases hc : Telling c
  · rw [r.code_of_telling hc, List.mem_singleton] at h
    rw [h]
  · have hline := r.isLineBreak_eq h
    cases hbreak : Trivia.isLineBreak c with
    | true => rw [isNamePart_of_isLineBreak hbreak, isNamePart_of_isLineBreak (hline.trans hbreak)]
    | false =>
      rw [isNamePart_of_le (le_of_not_telling hc hbreak),
        isNamePart_of_le (le_of_not_telling (r.not_telling_of_mem hc h) (hline.trans hbreak))]

theorem Lexeme.takeWhile_isNamePart_write (cs : List Char) :
    (r.write cs).takeWhile isNamePart = r.write (cs.takeWhile isNamePart) :=
  r.takeWhile_write (fun _ _ h => isNamePart_eq r h) cs

theorem Lexeme.nameLength_write (cs : List Char) :
    nameLength (r.write cs) = (r.write (cs.take (nameLength cs))).length := by
  unfold nameLength
  rw [takeWhile_isNamePart_write, ← List.prefix_iff_eq_take.mp (List.takeWhile_prefix _)]

end Words

/-! ## Block comments -/

namespace Comment

theorem marks_iff_prefix {cs : List Char} :
    marks cs = true ↔ ['/', '*'] <+: cs ∨ ['*', '/'] <+: cs := by
  rw [marks_eq_true_iff]
  simp [List.IsPrefix, eq_comm]

theorem marks_write (r : Recoding) (cs : List Char) : marks (r.write cs) = marks cs := by
  have hslash : Telling '/' := by decide
  have hstar : Telling '*' := by decide
  rw [Bool.eq_iff_iff, marks_iff_prefix, marks_iff_prefix, r.prefix_write_iff,
    r.prefix_write_iff]
  · simp [hslash, hstar]
  · simp [hslash, hstar]

theorem marks_of_not_telling {c : Char} (hc : ¬Telling c) (cs : List Char) :
    marks (c :: cs) = false := by
  rw [Bool.eq_false_iff]
  intro h
  apply hc
  rcases marks_eq_true_iff.mp h with ⟨ds, hds⟩ | ⟨ds, hds⟩
  · rw [(List.cons.inj hds).1]
    decide
  · rw [(List.cons.inj hds).1]
    decide

end Comment

namespace Trivia

theorem blockExtent_untold {depth seen : Nat} {front : List Char}
    (hfront : ∀ c ∈ front, ¬Telling c) (cs : List Char) :
    blockExtent (depth + 1) seen (front ++ cs) =
      blockExtent (depth + 1) (seen + front.length) cs := by
  induction front generalizing seen with
  | nil => rfl
  | cons c front ih =>
    rw [List.forall_mem_cons] at hfront
    rw [List.cons_append, Comment.blockExtent_char (Comment.marks_of_not_telling hfront.1 _),
      ih hfront.2, List.length_cons]
    congr 1
    omega

/-- A block comment reaches as far in every coding. -/
theorem blockExtent_write (r : Recoding) (depth seen seen' : Nat) (cs : List Char) :
    Extent.Written r seen seen' cs (blockExtent depth seen cs)
      (blockExtent depth seen' (r.write cs)) := by
  have hslash : Telling '/' := by decide
  have hstar : Telling '*' := by decide
  fun_induction blockExtent depth seen cs generalizing seen' with
  | case1 seen cs =>
    rw [blockExtent]
    exact .done
  | case2 depth seen =>
    rw [r.write_nil, blockExtent]
    exact .done
  | case3 depth seen cs ih =>
    rw [r.write_cons_of_telling hslash, r.write_cons_of_telling hstar, blockExtent]
    exact .behind_told hslash (.behind_told hstar (ih _))
  | case4 depth seen cs ih =>
    rw [r.write_cons_of_telling hstar, r.write_cons_of_telling hslash, blockExtent]
    exact .behind_told hstar (.behind_told hslash (ih _))
  | case5 depth seen c cs hopen hclose ih =>
    have hcode : blockExtent (depth + 1) seen' (r.code c ++ r.write cs) =
        blockExtent (depth + 1) (seen' + (r.code c).length) (r.write cs) := by
      by_cases hc : Telling c
      · have hmarks : Comment.marks (r.write (c :: cs)) = false := by
          rw [Comment.marks_write, Bool.eq_false_iff]
          intro h
          rcases Comment.marks_eq_true_iff.mp h with ⟨ds, hds⟩ | ⟨ds, hds⟩
          · exact hopen ds (List.cons.inj hds).1 (List.cons.inj hds).2
          · exact hclose ds (List.cons.inj hds).1 (List.cons.inj hds).2
        rw [r.write_cons_of_telling hc] at hmarks
        rw [r.code_of_telling hc, List.singleton_append, Comment.blockExtent_char hmarks]
        rfl
      · exact blockExtent_untold (fun d hd => r.not_telling_of_mem hc hd) _
    rw [r.write_cons, hcode]
    exact .behind_char rfl rfl (ih _)

/-! ## Pieces of gaps -/

section Pieces

variable (r : Recoding)

theorem telling_of_isBlank {c : Char} (h : isBlank c = true) : Telling c := by
  rcases isBlank_iff.mp h with rfl | rfl | rfl | rfl <;> decide

theorem isBlank_eq {c d : Char} (h : d ∈ r.code c) : isBlank d = isBlank c := by
  by_cases hc : Telling c
  · rw [r.code_of_telling hc, List.mem_singleton] at h
    rw [h]
  · have huntold : ∀ {e : Char}, ¬Telling e → isBlank e = false := fun he =>
      Bool.eq_false_iff.mpr fun hblank => he (telling_of_isBlank hblank)
    rw [huntold hc, huntold (r.not_telling_of_mem hc h)]

/-- Where no gap begins, none begins in any coding. -/
theorem scan?_write_none {cs : List Char} (h : scan? cs = none) : scan? (r.write cs) = none := by
  cases cs with
  | nil => exact h
  | cons c cs =>
    have hslash : Telling '/' := by decide
    have hstar : Telling '*' := by decide
    obtain ⟨d, ds, hcode, hd⟩ := r.exists_code c
    rw [scan?_eq_none_iff] at h
    obtain ⟨hline, hblank, hcomment⟩ := h
    rw [r.write_cons, hcode, List.cons_append, scan?_eq_none_iff]
    refine ⟨(r.isLineBreak_eq hd).trans hline, (isBlank_eq r hd).trans hblank, ?_⟩
    rintro rfl
    obtain rfl := r.eq_of_mem hd hslash
    rw [r.code_of_telling hslash] at hcode
    obtain ⟨-, rfl⟩ := List.cons.inj hcode
    rw [List.nil_append, Ne, Ne, r.head?_write_iff hslash, r.head?_write_iff hstar]
    exact hcomment rfl

theorem any_isLineBreak_write (cs : List Char) :
    (r.write cs).any isLineBreak = cs.any isLineBreak := by
  induction cs with
  | nil => rfl
  | cons c cs ih =>
    have hcode : (r.code c).any isLineBreak = isLineBreak c := by
      obtain ⟨d, -, -, hd⟩ := r.exists_code c
      rw [Bool.eq_iff_iff, List.any_eq_true]
      constructor
      · rintro ⟨e, he, hbreak⟩
        exact (r.isLineBreak_eq he).symm.trans hbreak
      · intro hbreak
        exact ⟨d, hd, (r.isLineBreak_eq hd).trans hbreak⟩
    rw [r.write_cons, List.any_append, List.any_cons, hcode, ih]

end Pieces

end Trivia

/-! ## Regular expressions and numbers -/

namespace Literal

theorem regexRun_untold {count seen : Nat} {front : List Char} (hfront : '/' ∉ front)
    (cs : List Char) :
    regexRun count seen (front ++ cs) = regexRun count (seen + front.length) cs := by
  induction front generalizing seen with
  | nil => rfl
  | cons c front ih =>
    rw [List.mem_cons, not_or] at hfront
    rw [List.cons_append, regexRun, if_neg fun h => hfront.1 h.1.symm, ih hfront.2,
      List.length_cons]
    congr 1
    omega

theorem regexRun_write (r : Recoding) (count seen seen' : Nat) (cs : List Char) :
    Extent.Written r seen seen' cs (regexRun count seen cs)
      (regexRun count seen' (r.write cs)) := by
  have hslash : Telling '/' := by decide
  induction cs generalizing seen seen' with
  | nil => exact .done
  | cons c cs ih =>
    by_cases hc : c = '/'
    · subst hc
      rw [r.write_cons_of_telling hslash, regexRun, regexRun, hashes_write]
      by_cases hcount : count ≤ hashes cs
      · have htake := take_hashes hcount
        rw [if_pos ⟨rfl, hcount⟩, if_pos ⟨rfl, hcount⟩]
        refine ⟨rfl, count + 1, by dsimp only; omega, ?_⟩
        rw [List.take_succ_cons, htake, r.write_cons_of_telling hslash,
          r.write_of_telling (telling_signs count), List.length_cons, List.length_replicate]
        dsimp only
        omega
      · rw [if_neg fun h => hcount h.2, if_neg fun h => hcount h.2]
        exact .behind_told hslash (ih _ _)
    · have hcode : '/' ∉ r.code c := fun h => hc (r.eq_of_mem h hslash).symm
      rw [regexRun, if_neg fun h => hc h.1, r.write_cons, regexRun_untold hcode]
      exact .behind_char rfl rfl (ih _ _)

theorem startsWithDigit_write (r : Recoding) (cs : List Char) :
    startsWithDigit (r.write cs) = startsWithDigit cs := by
  cases cs with
  | nil => rfl
  | cons c cs =>
    by_cases hc : Telling c
    · rw [r.write_cons_of_telling hc]
      rfl
    · obtain ⟨d, ds, hcode, hd⟩ := r.exists_code c
      have hdigit : ∀ {e : Char}, ¬Telling e → e.isDigit = false := fun he =>
        Bool.eq_false_iff.mpr fun h => he (telling_of_isDigit h)
      rw [r.write_cons, hcode, List.cons_append, startsWithDigit, startsWithDigit, hdigit hc,
        hdigit (r.not_telling_of_mem hc hd)]

theorem numberLength_untold {c : Char} (hc : ¬Telling c) (last : Char) (cs : List Char) :
    numberLength last (c :: cs) = 0 := by
  have halnum : c.isAlphanum = false :=
    Bool.eq_false_iff.mpr fun h => hc (telling_of_isAlphanum h)
  have hne : c ≠ '_' ∧ c ≠ '+' ∧ c ≠ '-' ∧ c ≠ '.' := by
    refine ⟨?_, ?_, ?_, ?_⟩ <;> exact ne_of_telling hc (by decide)
  simp [numberLength, halnum, hne]

/-- A number is made of characters that are looked for. -/
theorem numberLength_write (r : Recoding) (last : Char) (cs : List Char) :
    numberLength last (r.write cs) = numberLength last cs ∧
      ∀ c ∈ cs.take (numberLength last cs), Telling c := by
  induction cs generalizing last with
  | nil => simp [numberLength]
  | cons c cs ih =>
    by_cases hc : Telling c
    · rw [r.write_cons_of_telling hc, numberLength, numberLength, startsWithDigit_write]
      split
      · rw [(ih c).1, List.take_succ_cons]
        exact ⟨rfl, List.forall_mem_cons.mpr ⟨hc, (ih c).2⟩⟩
      · simp
    · obtain ⟨d, ds, hcode, hd⟩ := r.exists_code c
      rw [r.write_cons, hcode, List.cons_append, numberLength_untold hc,
        numberLength_untold (r.not_telling_of_mem hc hd)]
      simp

end Literal

/-! ## Tokens -/

namespace Lexeme

/-- What stands at the front of `cs`, and what stands at the front of its
coding. -/
structure Written (r : Recoding) (cs : List Char) (l l' : Lexeme) : Prop where
  kind_eq : l'.kind = l.kind
  closed_eq : l'.closed = l.closed
  length_eq : l'.length = (r.write (cs.take l.length)).length

section Coded

variable {r : Recoding} {c d : Char} {cs ds : List Char}

theorem Written.of_extent {e e' : Extent} (h : Extent.Written r 0 0 cs e e') (k : Kind) :
    Written r cs ⟨k, e.length, e.closed⟩ ⟨k, e'.length, e'.closed⟩ := by
  obtain ⟨n, hn, hn'⟩ := h.length_eq
  refine ⟨rfl, h.closed_eq, ?_⟩
  dsimp only
  rw [hn, hn', Nat.zero_add, Nat.zero_add]

theorem Written.of_telling {l : Lexeme} (h : ∀ c ∈ cs.take l.length, Telling c)
    (hlength : l.length ≤ cs.length) : Written r cs l l := by
  refine ⟨rfl, rfl, ?_⟩
  rw [r.write_of_telling h, List.length_take, Nat.min_eq_left hlength]

/-- What the coding of a token takes behind its first character. -/
theorem Written.cut {l l' : Lexeme} (h : Written r (c :: cs) l l') (hcode : r.code c = d :: ds)
    (hpos : 0 < l.length) (hpos' : 0 < l'.length) :
    d :: (ds ++ r.write cs).take (l'.length - 1) = r.write (c :: cs.take (l.length - 1)) ∧
      (ds ++ r.write cs).drop (l'.length - 1) = r.write (cs.drop (l.length - 1)) := by
  have htake := r.take_write l.length (c :: cs)
  have hdrop := r.drop_write l.length (c :: cs)
  have hwritten : r.write (c :: cs) = d :: (ds ++ r.write cs) := by
    rw [r.write_cons, hcode, List.cons_append]
  obtain ⟨k, hk⟩ : ∃ k, l.length = k + 1 := ⟨l.length - 1, by omega⟩
  obtain ⟨k', hk'⟩ : ∃ k', l'.length = k' + 1 := ⟨l'.length - 1, by omega⟩
  rw [← h.length_eq, hwritten, hk, hk', List.take_succ_cons, List.take_succ_cons] at htake
  rw [← h.length_eq, hwritten, hk, hk', List.drop_succ_cons, List.drop_succ_cons] at hdrop
  rw [hk, hk', Nat.add_sub_cancel, Nat.add_sub_cancel]
  exact ⟨htake, hdrop⟩

theorem single_write (hc : Telling c) (cs : List Char) (k : Kind) :
    Written r (c :: cs) (single k) (single k) :=
  .of_telling (by simpa [single] using hc) (by simp [single])

theorem word_write (hcode : r.code c = d :: ds) (hc : isNamePart c = true) :
    Written r (c :: cs) (word c cs) (word d (ds ++ r.write cs)) := by
  have hds : ∀ e ∈ ds, isNamePart e = true := fun e he =>
    (isNamePart_eq r (by simp [hcode, he])).trans hc
  have hname : d :: (ds ++ r.write (cs.takeWhile isNamePart)) =
      r.write (c :: cs.takeWhile isNamePart) := by
    rw [r.write_cons, hcode, List.cons_append]
  have htake : (c :: cs).take (c :: cs.takeWhile isNamePart).length =
      c :: cs.takeWhile isNamePart := by
    rw [List.length_cons, List.take_succ_cons]
    congr 1
    exact (List.prefix_iff_eq_take.mp (List.takeWhile_prefix _)).symm
  unfold word
  rw [List.takeWhile_append_of_pos hds, takeWhile_isNamePart_write]
  dsimp only
  rw [hname]
  refine ⟨Kind.ofWord_write r _, rfl, ?_⟩
  dsimp only
  rw [htake]

/-! ### Signs -/

theorem pound_signs_nil (count : Nat) : pound (List.replicate count '#') = single .unknown := by
  have hhashes := Literal.hashes_replicate_append count []
  have hdrop := Literal.drop_replicate_append count []
  rw [List.append_nil] at hhashes hdrop
  exact pound_of_drop_nil (by rw [hhashes]; exact hdrop)

/-- What `count + 1` signs in front of `d` start. -/
theorem pound_signs (count : Nat) (hd : d ≠ '#') (tail : List Char) :
    pound (List.replicate count '#' ++ d :: tail) =
      if d = '"' then
        ⟨.stringLiteral, (Literal.stringExtent (count + 1) ('"' :: tail)).length,
          (Literal.stringExtent (count + 1) ('"' :: tail)).closed⟩
      else if d = '/' then
        ⟨.regexLiteral, (Literal.regexRun (count + 1) (count + 1 + 1) tail).length,
          (Literal.regexRun (count + 1) (count + 1 + 1) tail).closed⟩
      else if count + 1 = 1 ∧ (d.isAlpha || d == '_') then
        ⟨.poundKeyword, nameLength (List.replicate count '#' ++ d :: tail) + 1, true⟩
      else single .unknown := by
  have hhead : (d :: tail).head? ≠ some '#' := by simpa using hd
  have hhashes : Literal.hashes (List.replicate count '#' ++ d :: tail) = count := by
    rw [Literal.hashes_replicate_append, Literal.hashes_of_head_ne hhead, Nat.add_zero]
  have hdrop : (List.replicate count '#' ++ d :: tail).drop
      (Literal.hashes (List.replicate count '#' ++ d :: tail)) = d :: tail := by
    rw [hhashes, Literal.drop_replicate_append]
  rw [pound_of_drop hdrop, hhashes]

/-- Signs in front of a character that is not looked for start nothing. -/
theorem pound_untold (count : Nat) (hd : ¬Telling d) (tail : List Char) :
    pound (List.replicate count '#' ++ d :: tail) = single .unknown := by
  have halpha : d.isAlpha = false := Bool.eq_false_iff.mpr fun h => hd (telling_of_isAlpha h)
  have hne : d ≠ '"' ∧ d ≠ '/' ∧ d ≠ '_' := by
    refine ⟨?_, ?_, ?_⟩ <;> exact ne_of_telling hd (by decide)
  rw [pound_signs count (ne_of_telling hd (by decide))]
  simp [hne, halpha]

theorem signs_write {count : Nat} {k : Kind} {e e' : Extent}
    (h : Extent.Written r (count + 1) (count + 1) cs e e') :
    Written r ('#' :: (List.replicate count '#' ++ cs)) ⟨k, e.length, e.closed⟩
      ⟨k, e'.length, e'.closed⟩ := by
  have hsigns := r.write_of_telling (Literal.telling_signs (count + 1))
  rw [← List.cons_append, ← List.replicate_succ]
  apply Written.of_extent
  apply Extent.Written.behind _ _ h
  · simp
  · simp [hsigns]

theorem pound_write (hfree : ¬r.SplitsEscaped cs) :
    Written r ('#' :: cs) (pound cs) (pound (r.write cs)) := by
  have hsign : Telling '#' := by decide
  obtain ⟨count, rest, rfl, hrest⟩ := Literal.exists_signs cs
  rw [r.write_append, r.write_of_telling (Literal.telling_signs count)]
  cases rest with
  | nil =>
    rw [r.write_nil, List.append_nil, pound_signs_nil]
    exact single_write hsign _ _
  | cons d tail =>
    have hd : d ≠ '#' := by simpa using hrest
    by_cases htold : Telling d
    · rw [r.write_cons_of_telling htold, pound_signs count hd, pound_signs count hd]
      by_cases hquote : d = '"'
      · rw [if_pos hquote, if_pos hquote]
        subst hquote
        exact signs_write (Literal.stringExtent_write _ fun h => hfree (h.of_append _))
      rw [if_neg hquote, if_neg hquote]
      by_cases hslash : d = '/'
      · rw [if_pos hslash, if_pos hslash]
        subst hslash
        apply signs_write
        exact .behind_told htold (Literal.regexRun_write _ _ _ _ _)
      rw [if_neg hslash, if_neg hslash]
      by_cases hword : count + 1 = 1 ∧ (d.isAlpha || d == '_') = true
      · rw [if_pos hword, if_pos hword]
        refine ⟨rfl, rfl, ?_⟩
        obtain rfl : count = 0 := Nat.succ.inj hword.1
        dsimp only
        rw [List.replicate_zero, List.nil_append, List.nil_append,
          ← r.write_cons_of_telling htold, nameLength_write, List.take_succ_cons,
          r.write_cons_of_telling hsign, List.length_cons]
      · rw [if_neg hword, if_neg hword]
        exact single_write hsign _ _
    · obtain ⟨e, es, hcode, he⟩ := r.exists_code d
      rw [r.write_cons, hcode, List.cons_append, pound_untold count htold,
        pound_untold count (r.not_telling_of_mem htold he)]
      exact single_write hsign _ _

/-! ### All tokens -/

theorem hyphen_write (cs : List Char) :
    Written r ('-' :: cs)
      (if cs.head? = some '>' then ⟨.arrow, 2, true⟩ else single .operatorSign)
      (if (r.write cs).head? = some '>' then ⟨.arrow, 2, true⟩ else single .operatorSign) := by
  have hangle : Telling '>' := by decide
  have hhead : (r.write cs).head? = some '>' ↔ cs.head? = some '>' := r.head?_write_iff hangle
  by_cases harrow : cs.head? = some '>'
  · obtain ⟨back, rfl⟩ := List.head?_eq_some_iff.mp harrow
    rw [if_pos harrow, if_pos (hhead.mpr harrow)]
    refine .of_telling ?_ (by simp)
    simp
    decide
  · rw [if_neg harrow, if_neg (hhead.not.mpr harrow)]
    exact single_write (by decide) cs _

theorem point_write (cs : List Char) :
    Written r ('.' :: cs)
      (if Name.startsWith ['.', '.'] cs = true then ⟨.ellipsis, 3, true⟩ else single .dot)
      (if Name.startsWith ['.', '.'] (r.write cs) = true then ⟨.ellipsis, 3, true⟩
        else single .dot) := by
  have hpoint : Telling '.' := by decide
  have hdots : ∀ c ∈ ['.', '.'], Telling c := by simpa using hpoint
  rw [r.startsWith_write hdots]
  by_cases hellipsis : Name.startsWith ['.', '.'] cs = true
  · obtain ⟨back, rfl⟩ := (Name.startsWith_iff _ _).mp hellipsis
    rw [if_pos hellipsis]
    exact .of_telling (by simpa using hpoint) (by simp)
  · rw [if_neg hellipsis]
    exact single_write hpoint cs _

/-- A name starts at every character outside ASCII. -/
theorem scan_of_le (h : 0x80 ≤ c.toNat) (cs : List Char) : scan c cs = word c cs := by
  have hne : ∀ e : Char, e.toNat < 0x80 → c ≠ e := by
    rintro e he rfl
    omega
  have hpunct : punctuation? c = none := by
    unfold punctuation?
    split <;> first | rfl | exact absurd h (by decide)
  have hdigit : c.isDigit = false := by
    rw [Bool.eq_false_iff]
    intro hdigit
    have hlt := (telling_of_isDigit hdigit).1
    omega
  have hsign : isOperatorSign c = false := by
    simp [isOperatorSign, hne '+' (by decide), hne '-' (by decide), hne '*' (by decide),
      hne '/' (by decide), hne '%' (by decide), hne '|' (by decide), hne '^' (by decide),
      hne '~' (by decide)]
  have hname : isNameStart c = true := by simp [isNameStart, h]
  unfold scan
  rw [hpunct]
  dsimp only
  rw [if_neg fun h => hne '-' (by decide) h.1, if_neg (hne '.' (by decide)),
    if_neg (hne '"' (by decide)), if_neg (hne '#' (by decide)), if_neg (hne '\x60' (by decide)),
    hdigit, hsign, hname]
  rfl

/-- What stands at the front of a text stands at the front of its coding. -/
theorem scan_write (hcode : r.code c = d :: ds) (hline : Trivia.isLineBreak c = false)
    (htick : c ≠ '\x60') (hfree : ¬r.SplitsEscaped (c :: cs)) :
    Written r (c :: cs) (scan c cs) (scan d (ds ++ r.write cs)) := by
  by_cases hc : Telling c
  · rw [r.code_of_telling hc] at hcode
    obtain ⟨rfl, rfl⟩ := List.cons.inj hcode
    rw [List.nil_append]
    obtain ⟨f, hform, hscan⟩ := exists_form c
    rw [hscan]
    cases hform with
    | punctuation => exact single_write hc cs _
    | hyphen => exact hyphen_write cs
    | point => exact point_write cs
    | quote => exact .of_extent (Literal.stringExtent_write 0 hfree) _
    | pound => exact pound_write fun h => hfree (h.of_append ['#'])
    | backtick => exact absurd rfl htick
    | digit =>
      obtain ⟨hnumber, htold⟩ := Literal.numberLength_write r c cs
      dsimp only
      rw [hnumber]
      apply Written.of_telling
      · rw [List.take_succ_cons]
        exact List.forall_mem_cons.mpr ⟨hc, htold⟩
      · exact Nat.succ_le_succ (Literal.numberLength_le c cs)
    | sign => exact single_write hc cs _
    | name hname => exact word_write (r.code_of_telling hc) (isNamePart_of_isNameStart hname)
    | unknown => exact single_write hc cs _
  · have hle := le_of_not_telling hc hline
    have hd : d ∈ r.code c := hcode ▸ List.mem_cons_self
    have hle' := le_of_not_telling (r.not_telling_of_mem hc hd) ((r.isLineBreak_eq hd).trans hline)
    rw [scan_of_le hle, scan_of_le hle']
    exact word_write hcode (isNamePart_of_le hle)

end Coded

end Lexeme

end AnySome
