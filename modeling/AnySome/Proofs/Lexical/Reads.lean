import Mathlib.Data.List.TakeWhile
import AnySome.Proofs.Lexical.Extent
import AnySome.Proofs.Run.Leads

/-!
# Signs that are read back

A sign is read at the front of a text if reading there gives its gap and its
token and leaves the rest. What the gap is does not depend on the token behind
it, and what the token is depends only on the characters up to the first hinge
behind it. So signs that are read in front of one text are read in front of
any text that agrees with it up to a hinge.

## Main results

* `Token.reads_of_step`, `Token.step_of_reads` — what it is to be read.
* `Lexes.of_scan`, `Lexes.scan_eq` — the signs of a text are read one after
  the other, and signs read one after the other are the signs of their text.
* `Lexes.agree` — what stands behind a hinge does not matter.
-/

namespace AnySome

/-! ## Block comments -/

namespace Trivia

/-- Each open comment takes two characters to close. -/
theorem le_length_blockExtent {depth seen : Nat} {cs : List Char}
    (h : (blockExtent depth seen cs).closed = true) :
    seen + 2 * depth ≤ (blockExtent depth seen cs).length := by
  fun_induction blockExtent depth seen cs with
  | case1 => simp
  | case2 => contradiction
  | case3 depth seen cs ih =>
    have := ih h
    omega
  | case4 depth seen cs ih =>
    have := ih h
    omega
  | case5 depth seen a cs _ _ ih =>
    have := ih h
    omega

theorem length_blockExtent_le (depth seen : Nat) (cs : List Char) :
    (blockExtent depth seen cs).length ≤ seen + cs.length := by
  fun_induction blockExtent depth seen cs with
  | case1 => simp
  | case2 => simp
  | case3 depth seen cs ih =>
    simp only [List.length_cons]
    omega
  | case4 depth seen cs ih =>
    simp only [List.length_cons]
    omega
  | case5 depth seen a cs _ _ ih =>
    simp only [List.length_cons]
    omega

/-- A closed comment does not depend on what stands behind it. -/
theorem blockExtent_take {depth seen n : Nat} {cs : List Char}
    (h : blockExtent depth seen cs = ⟨seen + n, true⟩) (Y : List Char) :
    blockExtent depth seen (cs.take n ++ Y) = ⟨seen + n, true⟩ := by
  fun_induction blockExtent depth seen cs generalizing n with
  | case1 seen cs =>
    rw [blockExtent]
    exact h
  | case2 => simp at h
  | case3 depth seen cs ih =>
    have hle := le_length_blockExtent (congrArg Extent.closed h)
    rw [h] at hle
    obtain ⟨m, rfl⟩ : ∃ m, n = m + 2 := ⟨n - 2, by simp only at hle; omega⟩
    rw [show seen + (m + 2) = seen + 2 + m by omega] at h ⊢
    exact ih h
  | case4 depth seen cs ih =>
    have hle := le_length_blockExtent (congrArg Extent.closed h)
    rw [h] at hle
    obtain ⟨m, rfl⟩ : ∃ m, n = m + 2 := ⟨n - 2, by simp only at hle; omega⟩
    rw [show seen + (m + 2) = seen + 2 + m by omega] at h ⊢
    exact ih h
  | case5 depth seen a cs hopen hclose ih =>
    have hle := le_length_blockExtent (congrArg Extent.closed h)
    rw [h] at hle
    obtain ⟨m, rfl⟩ : ∃ m, n = m + 1 := ⟨n - 1, by simp only at hle; omega⟩
    rw [show seen + (m + 1) = seen + 1 + m by omega] at h ⊢
    have hm : m ≠ 0 := by
      rintro rfl
      simp only at hle
      omega
    cases cs with
    | nil => simp [blockExtent] at h
    | cons b cs =>
      -- the character behind is still the one that was there
      obtain ⟨k, rfl⟩ := Nat.exists_eq_succ_of_ne_zero hm
      simp only [List.take_succ_cons, List.cons_append] at ih ⊢
      rw [blockExtent]
      · exact ih h
      · rintro rest rfl hrest
        cases hrest
        exact hopen cs rfl rfl
      · rintro rest rfl hrest
        cases hrest
        exact hclose cs rfl rfl

/-! ## Gaps -/

/-- The pieces are closed, and are read in front of any token. -/
structure IsGap (g : List Trivia) : Prop where
  closed : ∀ t ∈ g, t.isUnclosed = false
  gap_eq : ∀ {Y : List Char}, Y ≠ [] → scan? Y = none → gap (g.flatMap chars ++ Y) = (g, Y)

theorem gap_of_none {cs : List Char} (h : scan? cs = none) : gap cs = ([], cs) := by
  rw [gap]
  split
  · rfl
  next heq =>
    rw [h] at heq
    contradiction

theorem gap_of_some {t : Trivia} {cs : List Char} (h : scan? (t.chars ++ cs) = some t) :
    gap (t.chars ++ cs) = (t :: (gap cs).1, (gap cs).2) := by
  rw [gap]
  split
  next heq =>
    rw [h] at heq
    contradiction
  next t' heq =>
    rw [h] at heq
    cases heq
    simp

theorem scan?_gap (cs : List Char) : scan? (gap cs).2 = none := by
  fun_induction gap cs with
  | case1 cs h => exact h
  | case2 cs t h ts rest heq ih =>
    rw [heq] at ih
    exact ih

theorem isGap_nil : IsGap [] :=
  ⟨by simp, fun _ h => gap_of_none h⟩

/-- A single space, as it stands in canonical forms. -/
theorem isGap_space : IsGap [.blank ' '] := by
  refine ⟨by simp [isUnclosed], ?_⟩
  intro Y _ hY
  have hscan : scan? ((Trivia.blank ' ').chars ++ Y) = some (.blank ' ') := rfl
  have hgap := gap_of_some hscan
  rw [gap_of_none hY] at hgap
  exact hgap

/-- A piece is read again in front of what follows it in its gap. -/
theorem scan?_append {t : Trivia} {cs : List Char} (h : scan? cs = some t)
    (hclosed : t.isUnclosed = false) {Y : List Char}
    (hY : ∀ text, t = .lineComment text → ∃ Z, Y = '\n' :: Z) :
    scan? (t.chars ++ Y) = some t := by
  unfold scan? at h
  split at h
  · contradiction
  next a cs =>
    split at h
    next hbreak =>
      cases h
      simp [chars, scan?, hbreak]
    next hbreak =>
      split at h
      next hblank =>
        cases h
        simp [chars, scan?, hbreak, hblank]
      next hblank =>
        split at h
        next hslash =>
          subst hslash
          split at h
          next body =>
            cases h
            obtain ⟨Z, rfl⟩ := hY _ rfl
            have htake : (body.takeWhile (· ≠ '\n') ++ '\n' :: Z).takeWhile (· ≠ '\n') =
                body.takeWhile (· ≠ '\n') := by
              rw [List.takeWhile_append_of_pos (fun c hc => List.mem_takeWhile_imp (p := fun c => decide (c ≠ '\n')) hc)]
              simp
            simp only [chars, List.cons_append, scan?]
            rw [htake]
            rfl
          next body =>
            cases h
            have hextent : blockExtent 1 0 body = ⟨0 + (blockExtent 1 0 body).length, true⟩ := by
              have hend : (blockExtent 1 0 body).closed = true := by
                simpa [isUnclosed] using hclosed
              rw [Nat.zero_add, ← hend]
            have hagain := blockExtent_take hextent Y
            have hle := length_blockExtent_le 1 0 body
            simp only [chars, List.cons_append, scan?]
            rw [hagain, hextent]
            simp only [Nat.zero_add]
            rw [List.take_append_of_le_length (by simp; omega), List.take_take, Nat.min_self]
            rfl
          · contradiction
        · contradiction

/-- Behind a line comment stands the end of its line, or nothing. -/
theorem drop_lineComment {cs text : List Char} (h : scan? cs = some (.lineComment text)) :
    cs.drop text.length = [] ∨ ∃ Z, cs.drop text.length = '\n' :: Z := by
  unfold scan? at h
  split at h
  · contradiction
  next a cs =>
    split at h
    · cases h
    split at h
    · cases h
    split at h
    next hslash =>
      subst hslash
      split at h
      next body =>
        cases h
        have happ := List.takeWhile_append_dropWhile (p := fun c => decide (c ≠ '\n')) (l := body)
        have hdrop : body.drop (body.takeWhile (· ≠ '\n')).length =
            body.dropWhile (· ≠ '\n') := by
          have hleft : (body.takeWhile (· ≠ '\n') ++ body.dropWhile (· ≠ '\n')).drop
              (body.takeWhile (· ≠ '\n')).length = body.dropWhile (· ≠ '\n') := List.drop_left
          rw [happ] at hleft
          exact hleft
        simp only [List.length_cons, List.drop_succ_cons]
        rw [hdrop]
        cases hbody : body.dropWhile (· ≠ '\n') with
        | nil => exact .inl rfl
        | cons b bs =>
          have hb := List.head?_dropWhile_not (fun c => decide (c ≠ '\n')) body
          rw [hbody] at hb
          have hb' : b = '\n' := by simpa using hb
          exact .inr ⟨bs, by rw [hb']⟩
      · cases h
      · contradiction
    · contradiction

/-- A gap in front of a token is one in front of any token. -/
theorem isGap_of_gap {cs rest : List Char} {g : List Trivia} (h : gap cs = (g, rest))
    (hrest : rest ≠ []) (hclosed : ∀ t ∈ g, t.isUnclosed = false) : IsGap g := by
  refine ⟨hclosed, ?_⟩
  intro Y hY hnone
  fun_induction gap cs generalizing g with
  | case1 cs _ =>
    cases h
    exact gap_of_none hnone
  | case2 cs t hscan ts rest' heq ih =>
    cases h
    have hts := ih heq (fun u hu => hclosed u (List.mem_cons_of_mem _ hu))
    have hsplit : (t :: ts).flatMap chars ++ Y = t.chars ++ (ts.flatMap chars ++ Y) := by simp
    rw [hsplit, gap_of_some, hts]
    refine scan?_append hscan (hclosed t List.mem_cons_self) ?_
    rintro text rfl
    -- the end of the line is part of the gap, since a token follows
    rcases drop_lineComment hscan with hnil | ⟨Z, hZ⟩
    · rw [show (Trivia.lineComment text).chars.length = text.length from rfl, hnil,
        gap_of_none rfl] at heq
      cases heq
      exact absurd rfl hrest
    · have hbreak : scan? ((Trivia.lineBreak '\n').chars ++ Z) = some (.lineBreak '\n') := rfl
      have hgap : gap ('\n' :: Z) = _ := gap_of_some hbreak
      rw [show (Trivia.lineComment text).chars.length = text.length from rfl, hZ, hgap] at heq
      cases heq
      exact ⟨_, rfl⟩

end Trivia

/-! ## Reading a text step by step -/

namespace Token

theorem step_of_gap_nil {cs : List Char} (h : (Trivia.gap cs).2 = []) (offset : Nat) :
    step offset cs = .finish (endOfText (Trivia.gap cs).1
      (offset + Text.byteLength ((Trivia.gap cs).1.flatMap Trivia.chars))) := by
  unfold step
  dsimp only
  rw [h]
  rfl

theorem step_of_gap_cons {c : Char} {cs tail : List Char} (h : (Trivia.gap cs).2 = c :: tail)
    (offset : Nat) :
    step offset cs = .found (ofLexeme (Trivia.gap cs).1
      (offset + Text.byteLength ((Trivia.gap cs).1.flatMap Trivia.chars)) (Lexeme.scan c tail) c tail)
      (tail.drop ((Lexeme.scan c tail).length - 1)) := by
  unfold step
  dsimp only
  rw [h]
  rfl

theorem start_of_step_found {offset : Nat} {cs rest : List Char} {t : Token}
    (h : step offset cs = .found t rest) :
    t.start = offset + Text.byteLength t.gapChars := by
  unfold step behind at h
  dsimp only at h
  split at h
  · contradiction
  · cases h
    rfl

theorem start_of_step_finish {offset : Nat} {cs : List Char} {last : Token}
    (h : step offset cs = .finish last) :
    last.start = offset + Text.byteLength last.gapChars := by
  unfold step behind at h
  dsimp only at h
  split at h
  · cases h
    rfl
  · contradiction

theorem stop_of_step_found {offset : Nat} {cs rest : List Char} {t : Token}
    (h : step offset cs = .found t rest) : t.stop = offset + Text.byteLength t.fullChars := by
  rw [stop, start_of_step_found h, fullChars, Text.byteLength_append, Nat.add_assoc]

end Token

namespace TokenStream

variable {offset : Nat} {cs rest : List Char} {t : Token}

theorem scanFrom_of_finish (h : Token.step offset cs = .finish t) :
    scanFrom offset cs = ⟨[], t⟩ := by
  rw [scanFrom]
  split
  next heq =>
    rw [h] at heq
    cases heq
    rfl
  next heq =>
    rw [h] at heq
    contradiction

theorem scanFrom_of_found (h : Token.step offset cs = .found t rest) :
    scanFrom offset cs =
      ⟨t :: (scanFrom t.stop rest).pending, (scanFrom t.stop rest).final⟩ := by
  rw [scanFrom]
  split
  next heq =>
    rw [h] at heq
    contradiction
  next heq =>
    rw [h] at heq
    cases heq
    rfl

/-- A token starts behind its gap and the tokens in front of it. -/
theorem start_of_append {front back : List Token}
    (h : (scanFrom offset cs).toList = front ++ t :: back) :
    t.start = offset + Text.byteLength (front.flatMap Token.fullChars ++ t.gapChars) := by
  induction front generalizing offset cs with
  | nil =>
    cases hstep : Token.step offset cs with
    | finish last =>
      rw [scanFrom_of_finish hstep] at h
      obtain ⟨rfl, -⟩ := List.cons.inj h
      exact Token.start_of_step_finish hstep
    | found u rest =>
      rw [scanFrom_of_found hstep] at h
      obtain ⟨rfl, -⟩ := List.cons.inj h
      exact Token.start_of_step_found hstep
  | cons v front ih =>
    cases hstep : Token.step offset cs with
    | finish last =>
      rw [scanFrom_of_finish hstep] at h
      have htail := (List.cons.inj h).2
      simp at htail
    | found u rest =>
      rw [scanFrom_of_found hstep] at h
      obtain ⟨rfl, htail⟩ := List.cons.inj h
      rw [ih htail, Token.stop_of_step_found hstep]
      simp [Nat.add_assoc]

theorem text_final_scanFrom (offset : Nat) (cs : List Char) :
    (scanFrom offset cs).final.text = "" := by
  fun_induction scanFrom offset cs with
  | case1 offset cs last h => exact Token.text_of_step_finish h
  | case2 offset cs t rest h stream ih => exact ih

/-- The last token starts at the end of the text. -/
theorem start_final_scanFrom (offset : Nat) (cs : List Char) :
    (scanFrom offset cs).final.start = offset + Text.byteLength cs := by
  have hall := flatMap_fullChars_scanFrom offset cs
  rw [toList, List.flatMap_append, List.flatMap_singleton, Token.fullChars, text_final_scanFrom,
    String.toList_empty, List.append_nil] at hall
  have hsplit : (scanFrom offset cs).toList =
      (scanFrom offset cs).pending ++ (scanFrom offset cs).final :: [] := rfl
  rw [start_of_append hsplit, hall]

/-! A byte order mark at the start of a text is not read. -/

theorem body_of_mark {text : String} (h : text.toList.head? = some '\ufeff') :
    body text = (3, text.toList.tail) := by
  obtain ⟨cs, hcs⟩ := List.head?_eq_some_iff.mp h
  unfold body
  rw [hcs]
  rfl

theorem body_of_not_mark {text : String} (h : text.toList.head? ≠ some '\ufeff') :
    body text = (0, text.toList) := by
  unfold body
  split
  next cs hcs => exact absurd (by rw [hcs]; rfl) h
  · rfl

end TokenStream

/-! ## One sign -/

/-- Behind its gap, the text is read as a token of this kind in front of the
characters `Y`. -/
def TextReads (k : Kind) (text : String) (Y : List Char) : Prop :=
  ∃ a A, text.toList = a :: A ∧ Trivia.scan? (a :: (A ++ Y)) = none ∧
    Lexeme.scan a (A ++ Y) = ⟨k, A.length + 1, true⟩

/-- What stands behind a hinge does not matter to a token in front of it. -/
theorem TextReads.hinge {k : Kind} {text : String} {R Y : List Char} {c : Char}
    (h : TextReads k text (R ++ c :: Y)) (hc : isHinge c = true) (Y' : List Char) :
    TextReads k text (R ++ c :: Y') := by
  obtain ⟨a, A, htext, hgap, hscan⟩ := h
  rw [← List.append_assoc] at hgap hscan
  refine ⟨a, A, htext, ?_, ?_⟩
  · rw [← List.append_assoc]
    exact Trivia.scan?_hinge hgap Y'
  · rw [← List.append_assoc]
    exact Lexeme.scan_hinge hc hscan rfl (by simp) Y'

/-- The sign is read at the front of its characters and `Y`. -/
structure Sign.Reads (x : Sign) (Y : List Char) : Prop where
  gap : Trivia.IsGap x.gap
  text : TextReads x.kind x.text Y

namespace Token

/-- A token that was found, and that has its end, is read there. -/
theorem reads_of_step {offset : Nat} {cs rest : List Char} {t : Token}
    (h : step offset cs = .found t rest) (hend : t.isUnterminated = false) :
    t.sign.Reads rest := by
  unfold step behind at h
  dsimp only at h
  split at h
  · contradiction
  next a tail heq =>
    cases h
    simp only [isUnterminated, ofLexeme, Bool.or_eq_false_iff, Bool.not_eq_eq_eq_not,
      Bool.not_false, List.any_eq_false, Bool.not_eq_true] at hend
    have hgap : Trivia.gap cs = ((Trivia.gap cs).1, a :: tail) := Prod.ext rfl heq
    have hnone := Trivia.scan?_gap cs
    rw [heq] at hnone
    have hle := Lexeme.length_scan_le a tail
    have hpos := Lexeme.length_scan_pos a tail
    have hlen : (tail.take ((Lexeme.scan a tail).length - 1)).length =
        (Lexeme.scan a tail).length - 1 := by
      rw [List.length_take]
      omega
    refine ⟨Trivia.isGap_of_gap hgap (by simp) hend.2, a,
      tail.take ((Lexeme.scan a tail).length - 1), by simp [ofLexeme], ?_, ?_⟩
    · rw [List.take_append_drop]
      exact hnone
    · rw [List.take_append_drop, hlen]
      generalize Lexeme.scan a tail = l at hend hpos ⊢
      obtain ⟨k, n, closed⟩ := l
      simp only [sign_kind, ofLexeme, Lexeme.mk.injEq, true_and] at hend hpos ⊢
      exact ⟨by omega, hend.1⟩

/-- The token that a sign which is read at byte `offset` stands for. -/
def ofSign (offset : Nat) (x : Sign) : Token :=
  ⟨x.gap, x.kind, x.text, offset + Text.byteLength (x.gap.flatMap Trivia.chars), true⟩

/-- A sign that is read is found. -/
theorem step_of_reads {x : Sign} {Y : List Char} (h : x.Reads Y) (offset : Nat) :
    step offset (x.chars ++ Y) = .found (ofSign offset x) Y := by
  obtain ⟨a, A, htext, hnone, hscan⟩ := h.text
  have hgap : Trivia.gap (x.chars ++ Y) = (x.gap, a :: (A ++ Y)) := by
    have hread := h.gap.gap_eq (Y := a :: (A ++ Y)) (by simp) hnone
    rw [← hread, Sign.chars, htext]
    simp
  have hstring : String.ofList (a :: A) = x.text := by rw [← htext, String.ofList_toList]
  simp [step, hgap, behind, hscan, ofLexeme, ofSign, hstring]

theorem isUnterminated_ofSign {x : Sign} {Y : List Char} (h : x.Reads Y) (offset : Nat) :
    (ofSign offset x).isUnterminated = false := by
  simp only [isUnterminated, ofSign, Bool.not_true, Bool.false_or, List.any_eq_false]
  intro t ht
  simp [h.gap.closed t ht]

end Token

/-! ## Many signs -/

/-- The signs are read one after the other in front of the characters `Y`. -/
def Lexes : List Sign → List Char → Prop
  | [], _ => True
  | x :: S, Y => x.Reads (S.flatMap Sign.chars ++ Y) ∧ Lexes S Y

/-- Two texts are equal, or equal up to a hinge. -/
inductive Agree : List Char → List Char → Prop where
  | refl (Y : List Char) : Agree Y Y
  | hinge (R : List Char) {c : Char} (hc : isHinge c = true) (Y Y' : List Char) :
      Agree (R ++ c :: Y) (R ++ c :: Y')

theorem Agree.append {Y Y' : List Char} (h : Agree Y Y') (R : List Char) :
    Agree (R ++ Y) (R ++ Y') := by
  cases h with
  | refl => exact .refl _
  | hinge S hc Y Y' =>
    rw [← List.append_assoc, ← List.append_assoc]
    exact .hinge (R ++ S) hc Y Y'

theorem TextReads.agree {k : Kind} {text : String} {Y Y' : List Char}
    (h : TextReads k text Y) (hY : Agree Y Y') : TextReads k text Y' := by
  cases hY with
  | refl => exact h
  | hinge R hc Y Y' => exact h.hinge hc Y'

namespace Lexes

variable {S T : List Sign} {Y Y' : List Char}

theorem append_iff : Lexes (S ++ T) Y ↔ Lexes S (T.flatMap Sign.chars ++ Y) ∧ Lexes T Y := by
  induction S with
  | nil => simp [Lexes]
  | cons x S ih =>
    simp only [List.cons_append, Lexes, ih, List.flatMap_append, List.append_assoc, and_assoc]

/-- What stands behind a hinge does not matter. -/
theorem agree (h : Lexes S Y) (hY : Agree Y Y') : Lexes S Y' := by
  induction S with
  | nil => trivial
  | cons x S ih => exact ⟨⟨h.1.gap, h.1.text.agree (hY.append _)⟩, ih h.2⟩

/-- The signs of a text without open ends are read one after the other. -/
theorem of_scan {offset : Nat} {cs : List Char}
    (h : ∀ t ∈ (TokenStream.scanFrom offset cs).pending, t.isUnterminated = false) :
    Lexes ((TokenStream.scanFrom offset cs).pending.map Token.sign)
      (TokenStream.scanFrom offset cs).final.gapChars := by
  fun_induction TokenStream.scanFrom offset cs with
  | case1 => trivial
  | case2 offset cs t rest hstep stream ih =>
    have hrest := TokenStream.flatMap_fullChars_scanFrom t.stop rest
    have htext : stream.final.text = "" := TokenStream.text_final_scanFrom t.stop rest
    refine ⟨?_, ih fun u hu => h u (List.mem_cons_of_mem _ hu)⟩
    have hchars : (stream.pending.map Token.sign).flatMap Sign.chars ++ stream.final.gapChars =
        rest := by
      have hlast : stream.final.fullChars = stream.final.gapChars := by
        simp [Token.fullChars, htext]
      rw [TokenStream.toList, List.flatMap_append, List.flatMap_singleton] at hrest
      rw [List.flatMap_map, ← hlast]
      exact hrest
    rw [hchars]
    exact Token.reads_of_step hstep (h t List.mem_cons_self)

/-- Signs that are read one after the other are the signs of their text. -/
theorem scan_eq {g : List Trivia} (h : Lexes S Y) (hY : Trivia.gap Y = (g, []))
    (offset : Nat) :
    (TokenStream.scanFrom offset (S.flatMap Sign.chars ++ Y)).pending.map Token.sign = S ∧
      (TokenStream.scanFrom offset (S.flatMap Sign.chars ++ Y)).final.sign =
        ⟨g, .endOfFile, ""⟩ ∧
      ∀ t ∈ (TokenStream.scanFrom offset (S.flatMap Sign.chars ++ Y)).pending,
        t.isUnterminated = false := by
  induction S generalizing offset with
  | nil =>
    have hstep : Token.step offset Y =
        .finish (.endOfText g (offset + Text.byteLength (g.flatMap Trivia.chars))) := by
      simp [Token.step, hY, Token.behind]
    rw [List.flatMap_nil, List.nil_append, TokenStream.scanFrom_of_finish hstep]
    exact ⟨rfl, rfl, by simp⟩
  | cons x S ih =>
    have hstep := Token.step_of_reads h.1 offset
    rw [List.flatMap_cons, List.append_assoc, TokenStream.scanFrom_of_found hstep]
    obtain ⟨hpending, hfinal, hends⟩ := ih h.2 (Token.ofSign offset x).stop
    refine ⟨by rw [List.map_cons, hpending]; rfl, hfinal, ?_⟩
    intro t ht
    rcases List.mem_cons.mp ht with rfl | ht
    · exact Token.isUnterminated_ofSign h.1 offset
    · exact hends t ht

end Lexes

end AnySome
