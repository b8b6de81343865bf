import AnySome.Proofs.Lexical.Reads
import AnySome.Proofs.Mirror.Chunks
import AnySome.SourceFile

/-!
# Writing a file back

The tokens of a text stand one behind the other, and their spans say where
(`Placed`). So the ascriptions of a text are in order and do not overlap, and
writing the text back copies the kept chunks and replaces the types of the
others.

## Main results

* `Placed.scanFrom` — the tokens of a text are placed.
* `SourceFile.sortByStart_eq_self` — ascriptions in order stay in order.
* `SourceFile.splice_chunks` — the text that is written back.
-/

namespace AnySome

open Cursor Chunk

/-! ## Tokens in their places -/

/-- The tokens stand one behind the other, from byte `offset` on. -/
def Placed (offset : Nat) : List Token → Prop
  | [] => True
  | t :: ts => t.start = offset + Text.byteLength t.gapChars ∧ t.text.toList ≠ [] ∧
      Placed t.stop ts

/-- The tokens with their gaps. -/
def Token.allChars (ts : List Token) : List Char := ts.flatMap Token.fullChars

namespace Placed

variable {offset : Nat} {t : Token} {ts us : List Token}

/-- The tokens of a text are placed. -/
theorem scanFrom (offset : Nat) (cs : List Char) :
    Placed offset (TokenStream.scanFrom offset cs).pending := by
  fun_induction TokenStream.scanFrom offset cs with
  | case1 => trivial
  | case2 offset cs t rest h stream ih =>
    exact ⟨Token.start_of_step_found h, Token.text_ne_nil_of_step_found h, ih⟩

theorem stop_eq (h : Placed offset (t :: ts)) :
    t.stop = offset + Text.byteLength t.fullChars := by
  unfold Token.stop Token.fullChars
  rw [h.1, Text.byteLength_append]
  omega

theorem append_iff : Placed offset (ts ++ us) ↔
    Placed offset ts ∧ Placed (offset + Text.byteLength (Token.allChars ts)) us := by
  induction ts generalizing offset with
  | nil => simp [Placed, Token.allChars]
  | cons t ts ih =>
    constructor
    · rintro ⟨hstart, htext, hrest⟩
      obtain ⟨hts, hus⟩ := ih.mp hrest
      have hplaced : Placed offset (t :: ts) := ⟨hstart, htext, hts⟩
      refine ⟨hplaced, ?_⟩
      rw [hplaced.stop_eq] at hus
      simpa [Token.allChars, Nat.add_assoc] using hus
    · rintro ⟨hts, hus⟩
      refine ⟨hts.1, hts.2.1, ih.mpr ⟨hts.2.2, ?_⟩⟩
      rw [hts.stop_eq]
      simpa [Token.allChars, Nat.add_assoc] using hus

theorem start_lt_stop (h : Placed offset (t :: ts)) : offset ≤ t.start ∧ t.start < t.stop := by
  have hpos : 0 < Text.byteLength t.text.toList := by
    cases htext : t.text.toList with
    | nil => exact absurd htext h.2.1
    | cons a A =>
      have hchar := a.utf8Size_pos
      rw [Text.byteLength_cons]
      omega
  have hstart := h.1
  unfold Token.stop
  omega

/-- The last token stops where the tokens end. -/
theorem lastStop_eq (h : Placed offset ts) :
    lastStop offset ts = offset + Text.byteLength (Token.allChars ts) := by
  induction ts generalizing offset with
  | nil => rfl
  | cons t ts ih =>
    have hlast : lastStop offset (t :: ts) = lastStop t.stop ts := by
      cases ts with
      | nil => rfl
      | cons u ts => simp [lastStop, List.getLast?_cons]
    rw [hlast, ih h.2.2, h.stop_eq]
    simp [Token.allChars, Nat.add_assoc]

end Placed

namespace Segment

variable {s : Segment} {offset : Nat}

theorem exists_tokens (s : Segment) : ∃ t ts, s.tokens = t :: ts := by
  apply List.exists_cons_of_ne_nil
  intro hnil
  exact s.spells.shape.ne_nil (by rw [hnil]; rfl)

/-- The span of a type is that of its tokens, without the gap in front. -/
theorem span_eq_of_placed (h : Placed offset (s.guard :: s.tokens)) {t : Token} {ts : List Token}
    (hts : s.tokens = t :: ts) :
    s.ascription.span.start = s.guard.stop + Text.byteLength t.gapChars ∧
      s.ascription.span.stop = s.guard.stop + Text.byteLength (Token.allChars s.tokens) := by
  have htokens : Placed s.guard.stop s.tokens := h.2.2
  have hlast := htokens.lastStop_eq
  have hstart : (s.tokens.headD s.guard).start = s.guard.stop + Text.byteLength t.gapChars := by
    rw [hts] at htokens ⊢
    exact htokens.1
  rw [s.span_eq, hstart, hlast]
  refine ⟨rfl, ?_⟩
  have hle : Text.byteLength t.gapChars ≤ Text.byteLength (Token.allChars s.tokens) := by
    simp only [hts, Token.allChars, List.flatMap_cons, Token.fullChars, Text.byteLength_append]
    omega
  exact Nat.max_eq_left (by omega)

/-- The type stops where its segment ends. -/
theorem stop_eq_of_placed (h : Placed offset (s.guard :: s.tokens)) :
    s.ascription.span.stop = offset + Text.byteLength (Token.allChars (s.guard :: s.tokens)) := by
  obtain ⟨t, ts, hts⟩ := s.exists_tokens
  rw [(s.span_eq_of_placed h hts).2, h.stop_eq]
  simp [Token.allChars, Nat.add_assoc]

/-- The characters of a segment: its guard, the gap behind that, and the type. -/
theorem exists_chars_of_placed (h : Placed offset (s.guard :: s.tokens)) :
    ∃ B, Token.allChars (s.guard :: s.tokens) =
        s.guard.fullChars ++ (s.tokens.headD s.guard).gapChars ++ B ∧
      s.ascription.span.start = offset +
        Text.byteLength (s.guard.fullChars ++ (s.tokens.headD s.guard).gapChars) := by
  obtain ⟨t, ts, hts⟩ := s.exists_tokens
  refine ⟨t.text.toList ++ Token.allChars ts, ?_, ?_⟩
  · simp [hts, Token.allChars, Token.fullChars]
  · rw [(s.span_eq_of_placed h hts).1, h.stop_eq, hts, List.headD_cons, Text.byteLength_append,
      Nat.add_assoc]

end Segment

/-! ## Ascriptions in order -/

/-- The ascriptions of placed chunks start one behind the other. -/
theorem Placed.starts {offset : Nat} {K : List Chunk} (h : Placed offset (allTokens K)) :
    (allAscriptions K).Pairwise (fun a b => a.span.start < b.span.start) ∧
      ∀ a ∈ allAscriptions K, offset ≤ a.span.start := by
  induction K generalizing offset with
  | nil => exact ⟨.nil, by simp [allAscriptions]⟩
  | cons k K ih =>
    cases k with
    | kept t =>
      have hplaced : Placed offset (t :: allTokens K) := h
      obtain ⟨hpairs, hstarts⟩ := ih hplaced.2.2
      refine ⟨hpairs, ?_⟩
      intro a ha
      have hle := hplaced.start_lt_stop
      have hstart := hstarts a ha
      omega
    | typed s =>
      obtain ⟨hs, hK⟩ := Placed.append_iff.mp (show Placed offset
        ((s.guard :: s.tokens) ++ allTokens K) from h)
      obtain ⟨hpairs, hstarts⟩ := ih hK
      obtain ⟨t, ts, hts⟩ := s.exists_tokens
      have hspan := (s.span_eq_of_placed hs hts).1
      have hguard := hs.start_lt_stop
      have hstop := hs.stop_eq
      have hfirst : Placed s.guard.stop (t :: ts) := hts ▸ hs.2.2
      have htext := hfirst.start_lt_stop
      have hend := hfirst.stop_eq
      have hbehind : t.stop ≤ offset + Text.byteLength (Token.allChars (s.guard :: s.tokens)) := by
        simp only [hts, Token.allChars, List.flatMap_cons, Text.byteLength_append] at *
        omega
      rw [hfirst.1] at htext
      refine ⟨List.pairwise_cons.mpr ⟨?_, hpairs⟩, ?_⟩
      · intro a ha
        have hstart := hstarts a ha
        omega
      · intro a ha
        rcases List.mem_cons.mp ha with rfl | ha
        · omega
        · have hstart := hstarts a ha
          omega

namespace SourceFile

/-- Ascriptions in order stay in order. -/
theorem sortByStart_eq_self {as : List Ascription}
    (h : as.Pairwise fun a b => a.span.start < b.span.start) : sortByStart as = as :=
  List.mergeSort_of_pairwise (h.imp fun hlt => decide_eq_true (Nat.le_of_lt hlt))

end SourceFile

/-! ## Splicing -/

/-- The ascription with its type in the revision. -/
def Revision.update (w : Revision) (a : Ascription) : Ascription := { a with type := w.type a }

/-- What is written in the place of a type: the type as it stands if it does
not change, and its printed form behind the old gap if it does. -/
structure Segment.Written (s : Segment) (u : TypeExpr) (S : List Sign) : Prop where
  unchanged : u = s.ascription.parsed → S = s.tokens.map Token.sign
  changed : u ≠ s.ascription.parsed →
    S.flatMap Sign.chars = (s.tokens.headD s.guard).gapChars ++ u.print.toList

namespace SourceFile

variable {w : Revision}

/-- The changed ascriptions of chunks. -/
def changes (w : Revision) (K : List Chunk) : List Ascription :=
  ((allAscriptions K).map w.update).filter Ascription.isChanged

theorem changes_typed (s : Segment) (K : List Chunk) :
    changes w (.typed s :: K) =
      if w.type s.ascription = s.ascription.parsed then changes w K
      else w.update s.ascription :: changes w K := by
  show List.filter _ (w.update s.ascription :: (allAscriptions K).map w.update) = _
  rw [List.filter_cons]
  by_cases h : w.type s.ascription = s.ascription.parsed <;>
    simp [Ascription.isChanged, Revision.update, h, changes]

/-- One changed ascription is replaced. -/
theorem splice_cons {size offset : Nat} {A B Z : List Char} {a : Ascription} {as : List Ascription}
    (hstart : a.span.start = offset + Text.byteLength A)
    (hstop : a.span.stop = offset + Text.byteLength (A ++ B)) (hsize : a.span.stop ≤ size) :
    splice size offset (A ++ B ++ Z) (a :: as) =
      A ++ a.type.print.toList ++ splice size a.span.stop Z as := by
  have hinside : ¬(decide (a.span.start < offset) || decide (size < a.span.stop)) = true := by
    simp only [Bool.or_eq_true, decide_eq_true_eq]
    omega
  have hfront : a.span.start - offset = Text.byteLength A := by omega
  have hback : a.span.stop - offset = Text.byteLength (A ++ B) := by omega
  rw [splice, if_neg hinside, hfront, hback, Text.dropBytes?_append, List.append_assoc A B Z,
    Text.takeBytes?_append]
  rfl

/-- One changed type is replaced, behind the characters `R` that are kept. -/
theorem splice_typed {s : Segment} {size offset : Nat} {R Z : List Char} {as : List Ascription}
    (hw : s.Written (w.type s.ascription) (w.signs s))
    (hdiffers : w.type s.ascription ≠ s.ascription.parsed)
    (hplaced : Placed (offset + Text.byteLength R) (s.guard :: s.tokens))
    (hsize : offset + Text.byteLength (R ++ (Token.allChars (s.guard :: s.tokens) ++ Z)) ≤ size) :
    splice size offset (R ++ (Token.allChars (s.guard :: s.tokens) ++ Z))
        (w.update s.ascription :: as) =
      R ++ ((w.chunk (.typed s)).flatMap Sign.chars ++ splice size s.ascription.span.stop Z as) := by
  obtain ⟨B, hchars, hstart⟩ := s.exists_chars_of_placed hplaced
  have hstop := s.stop_eq_of_placed hplaced
  have hnew : (w.chunk (.typed s)).flatMap Sign.chars =
      s.guard.fullChars ++ (s.tokens.headD s.guard).gapChars ++
        (w.type s.ascription).print.toList := by
    simp [Revision.chunk, hw.changed hdiffers]
  rw [hchars] at hsize hstop ⊢
  rw [hnew]
  generalize s.guard.fullChars ++ (s.tokens.headD s.guard).gapChars = A at *
  simp only [Text.byteLength_append] at hsize hstop
  have hcut : splice size offset (R ++ A ++ B ++ Z) (w.update s.ascription :: as) =
      R ++ A ++ (w.type s.ascription).print.toList ++ splice size s.ascription.span.stop Z as := by
    refine splice_cons ?_ ?_ ?_ <;> simp only [Revision.update, Text.byteLength_append] <;> omega
  simpa only [List.append_assoc] using hcut

/-- What is written back is the revised text: the characters `R`, which have
been passed already, and the signs of the revision. -/
theorem splice_chunks {K : List Chunk}
    (hw : ∀ s, Chunk.typed s ∈ K → s.Written (w.type s.ascription) (w.signs s))
    {offset size : Nat} {R Y : List Char}
    (hplaced : Placed (offset + Text.byteLength R) (allTokens K))
    (hsize : offset + Text.byteLength (R ++ (Token.allChars (allTokens K) ++ Y)) ≤ size) :
    splice size offset (R ++ (Token.allChars (allTokens K) ++ Y)) (changes w K) =
      R ++ ((w.news K).flatMap Sign.chars ++ Y) := by
  induction K generalizing offset R with
  | nil => rfl
  | cons k K ih =>
    have hwK : ∀ s, Chunk.typed s ∈ K → s.Written (w.type s.ascription) (w.signs s) :=
      fun s hs => hw s (List.mem_cons_of_mem k hs)
    -- The tokens of the chunk and those behind it.
    have hsplit : Token.allChars (allTokens (k :: K)) =
        Token.allChars k.tokens ++ Token.allChars (allTokens K) := by
      simp [allTokens, Token.allChars]
    obtain ⟨hk, hK⟩ := Placed.append_iff.mp (show Placed (offset + Text.byteLength R)
      (k.tokens ++ allTokens K) from hplaced)
    rw [hsplit] at hsize ⊢
    have hnews : (w.news (k :: K)).flatMap Sign.chars =
        (w.chunk k).flatMap Sign.chars ++ (w.news K).flatMap Sign.chars := by
      simp
    -- A chunk that stays is passed, and written when something behind it is.
    have hpass : splice size offset
        (R ++ (Token.allChars k.tokens ++ Token.allChars (allTokens K) ++ Y)) (changes w K) =
        R ++ (Token.allChars k.tokens ++ (w.news K).flatMap Sign.chars ++ Y) := by
      rw [Nat.add_assoc, ← Text.byteLength_append] at hK
      have hrest := ih hwK hK (by simpa [Nat.add_assoc] using hsize)
      simpa [List.append_assoc] using hrest
    cases k with
    | kept t =>
      rw [hnews]
      exact hpass
    | typed s =>
      rw [changes_typed, hnews]
      have hwritten := hw s List.mem_cons_self
      split
      next hsame =>
        rw [hpass, Revision.chunk, hwritten.unchanged hsame]
        simp [Chunk.tokens, Token.allChars, List.flatMap_map]
      next hdiffers =>
        have hstop := s.stop_eq_of_placed hk
        have htokens : (Chunk.typed s).tokens = s.guard :: s.tokens := rfl
        rw [htokens] at hsize hK ⊢
        rw [← hstop] at hK
        have hrest : splice size s.ascription.span.stop (Token.allChars (allTokens K) ++ Y)
            (changes w K) = (w.news K).flatMap Sign.chars ++ Y := by
          refine ih hwK (R := []) hK ?_
          rw [hstop]
          simpa [Nat.add_assoc] using hsize
        rw [List.append_assoc, splice_typed hwritten hdiffers hk (by simpa using hsize), hrest,
          List.append_assoc]

end SourceFile

end AnySome
