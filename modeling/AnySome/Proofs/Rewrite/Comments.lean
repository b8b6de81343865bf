import Mathlib.Data.List.Flatten
import AnySome.Proofs.Respell.Comments
import AnySome.Proofs.Rewrite.Idempotence

/-!
# The comments of a file that is written back

A comment stands in the gap in front of some token. Where nothing is replaced,
gaps are copied; and so is the gap in front of a type that is replaced. Of the
comments inside such a type those stay that are inside one of its texts, since
qualifying changes no text. The others stand between the parts of the type,
where the canonical form has nothing but spaces, and are dropped.

So the comments of the file that is written are known exactly
(`SourceFile.commentsAt`), and they are some of those that the file had, in the
same order.

## Main results

* `Revision.comments_news` — the comments of a revised text.
* `Migration.comment_between_parts_dropped` — not every comment stays.
* `Migration.comments_of_written_file` — which comments stay.
-/

namespace AnySome

open Cursor Chunk TypeExpr

/-! ## Comments and ascriptions -/

/-- The token is one of the ascription. -/
def Ascription.covers (a : Ascription) (t : Token) : Bool :=
  a.span.start ≤ t.start && t.start < a.span.stop

/-- The token is one of the ascription, and not the first: the gap in front of
it is inside the ascription. -/
def Ascription.coversGap (a : Ascription) (t : Token) : Bool :=
  a.span.start < t.start && t.start < a.span.stop

/-- What becomes of the comments in front of a token where these ascriptions are
replaced. Those in front of a new type stay, and those of its texts follow; no
others are inside it. -/
def commentsAmong (changed : List Ascription) (t : Token) : List String :=
  match changed.find? (·.covers t) with
  | none => t.comments
  | some a => if t.start = a.span.start then t.comments ++ a.type.comments else []

/-- What becomes of the comments in front of a token when the file is written. -/
def SourceFile.commentsAt (f : SourceFile) (t : Token) : List String :=
  commentsAmong (f.ascriptions.filter Ascription.isChanged) t

/-- The comments inside an ascription. -/
def SourceFile.commentsInside (f : SourceFile) (a : Ascription) : List String :=
  ((TokenStream.scan f.text).toList.filter a.coversGap).flatMap Token.comments

/-! ## Tokens and ascriptions in their places -/

theorem Placed.mem_start {offset : Nat} {ts : List Token} (h : Placed offset ts) {t : Token}
    (ht : t ∈ ts) : offset ≤ t.start ∧ t.start < offset + Text.byteLength (Token.allChars ts) := by
  obtain ⟨A, B, rfl⟩ := List.append_of_mem ht
  obtain ⟨-, hB⟩ := append_iff.mp h
  have hstart := hB.start_lt_stop
  have hstop := hB.stop_eq
  simp only [Token.allChars, List.flatMap_append, List.flatMap_cons, Text.byteLength_append] at *
  omega

theorem Ascription.covers_iff {a : Ascription} {t : Token} :
    a.covers t = true ↔ a.span.start ≤ t.start ∧ t.start < a.span.stop := by
  simp [covers]

section

variable {as bs : List Ascription} {t : Token}

/-- Ascriptions that end in front of a token do not matter to its comments. -/
theorem commentsAmong_append_left (h : ∀ a ∈ as, a.span.stop ≤ t.start) :
    commentsAmong (as ++ bs) t = commentsAmong bs t := by
  have hnone : as.find? (·.covers t) = none := by
    rw [List.find?_eq_none]
    intro a ha
    have hstop := h a ha
    rw [Ascription.covers_iff]
    omega
  unfold commentsAmong
  rw [List.find?_append, hnone, Option.none_or]

/-- Ascriptions that start behind a token do not matter either. -/
theorem commentsAmong_of_lt (h : ∀ a ∈ as, t.start < a.span.start) :
    commentsAmong as t = t.comments := by
  have hnone : as.find? (·.covers t) = none := by
    rw [List.find?_eq_none]
    intro a ha
    have hstart := h a ha
    rw [Ascription.covers_iff]
    omega
  unfold commentsAmong
  rw [hnone]

theorem commentsAmong_cons {a : Ascription} (h : a.covers t = true) :
    commentsAmong (a :: as) t =
      if t.start = a.span.start then t.comments ++ a.type.comments else [] := by
  unfold commentsAmong
  rw [List.find?_cons, h]

/-- Tokens between ascriptions keep their comments. -/
theorem commentsAmong_between {offset : Nat} {ts : List Token} (h : Placed offset ts)
    (has : ∀ a ∈ as, a.span.stop ≤ offset)
    (hbs : ∀ b ∈ bs, offset + Text.byteLength (Token.allChars ts) ≤ b.span.start) :
    ts.flatMap (commentsAmong (as ++ bs)) = ts.flatMap Token.comments := by
  apply List.flatMap_congr
  intro t ht
  obtain ⟨hstart, hlt⟩ := h.mem_start ht
  rw [commentsAmong_append_left fun a ha => (has a ha).trans hstart]
  exact commentsAmong_of_lt fun b hb => Nat.lt_of_lt_of_le hlt (hbs b hb)

end

/-! ## One type -/

theorem TypeExpr.Variant.texts_eq {g : Nat} {t u : TypeExpr} (h : Variant g t u) :
    u.texts = t.texts := by
  cases h with
  | same => rfl
  | requalified rules k => exact texts_requalify rules k t

theorem TypeExpr.Variant.comments_eq {g : Nat} {t u : TypeExpr} (h : Variant g t u) :
    u.comments = t.comments := by
  unfold TypeExpr.comments
  rw [h.texts_eq]

namespace Segment

variable {s : Segment} {X : List Char} {t : Token} {ts : List Token}

/-- The comments of the texts of a type are among those inside the type. -/
theorem comments_sublist (hlex : Lexes (s.tokens.map Token.sign) X) (hts : s.tokens = t :: ts) :
    s.ascription.parsed.comments.Sublist (ts.flatMap Token.comments) := by
  have hspells := s.spells.regap []
  rw [hts] at hlex hspells
  have hlex' : Lexes (regap [] ((t :: ts).map Token.sign)) X :=
    ⟨⟨Trivia.isGap_nil, hlex.1.text⟩, hlex.2⟩
  have hkeeps := (hspells.keeps hlex').2
  rwa [comments_regap_of_nil (by simp) rfl, Sign.innerComments, List.map_cons,
    List.drop_succ_cons, List.drop_zero, comments_map_sign] at hkeeps

/-- The comments of the signs that stand in the place of a type. -/
theorem Respelt.comments_eq {g : Nat} {u : TypeExpr} {S : List Sign} (h : s.Respelt g u S)
    (hu : Variant g s.ascription.parsed u) (hlex : Lexes (s.tokens.map Token.sign) X)
    (hne : u ≠ s.ascription.parsed) (hts : s.tokens = t :: ts) :
    S.flatMap Sign.comments = t.comments ++ u.comments := by
  obtain ⟨T, hT, rfl⟩ := h.part hne
  have hwhole : ∀ text ∈ u.texts, Whole text := by
    rw [hu.texts_eq]
    exact (s.spells.keeps hlex).1
  have hread : Holds u.print.toList (Sign.innerComments T) :=
    ⟨T, by rwa [String.ofList_toList], rfl⟩
  rw [comments_regap hT.ne_nil, hread.unique (holds_print u hwhole), hts]
  rfl

/-- No comment is added to a type, and none is moved. -/
theorem Respelt.comments_sublist {g : Nat} {u : TypeExpr} {S : List Sign} (h : s.Respelt g u S)
    (hu : Variant g s.ascription.parsed u) (hlex : Lexes (s.tokens.map Token.sign) X) :
    (S.flatMap Sign.comments).Sublist (s.tokens.flatMap Token.comments) := by
  obtain ⟨t, ts, hts⟩ := s.exists_tokens
  by_cases hsame : u = s.ascription.parsed
  · rw [h.unchanged hsame, comments_map_sign]
  · rw [h.comments_eq hu hlex hsame hts, hu.comments_eq, hts, List.flatMap_cons]
    exact (List.Sublist.refl _).append (Segment.comments_sublist hlex hts)

/-- Where the tokens of a type start: the first where the type does, and the
others inside it. -/
theorem starts_of_placed {offset : Nat} (h : Placed offset (s.guard :: s.tokens))
    (hts : s.tokens = t :: ts) :
    s.guard.start < s.ascription.span.start ∧ t.start = s.ascription.span.start ∧
      s.ascription.span.start < s.ascription.span.stop ∧
      ∀ v ∈ ts, s.ascription.span.start < v.start ∧ v.start < s.ascription.span.stop := by
  obtain ⟨hstart, hstop⟩ := s.span_eq_of_placed h hts
  have hguard := h.start_lt_stop
  have hfirst : Placed s.guard.stop (t :: ts) := hts ▸ h.2.2
  have ht := hfirst.start_lt_stop
  have hplace := hfirst.1
  have hend := hfirst.stop_eq
  have hsize : Text.byteLength (Token.allChars s.tokens) =
      Text.byteLength t.fullChars + Text.byteLength (Token.allChars ts) := by
    rw [hts, Token.allChars, List.flatMap_cons, Text.byteLength_append]
    rfl
  refine ⟨by omega, by omega, by omega, ?_⟩
  intro v hv
  have hmem := Placed.mem_start hfirst.2.2 hv
  omega

/-- The tokens of a type that is replaced: the comments in front of the type
stay, and those of the new type follow. -/
theorem comments_replaced {offset : Nat} (h : Placed offset (s.guard :: s.tokens))
    (hts : s.tokens = t :: ts) {a : Ascription} (ha : a.span = s.ascription.span)
    {as bs : List Ascription} (has : ∀ b ∈ as, b.span.stop ≤ offset)
    (hbs : ∀ b ∈ bs, s.guard.start < b.span.start) :
    (s.guard :: s.tokens).flatMap (commentsAmong (as ++ a :: bs)) =
      s.guard.comments ++ (t.comments ++ a.type.comments) := by
  obtain ⟨hguard, ht, hlt, hothers⟩ := starts_of_placed h hts
  rw [← ha] at hguard ht hlt hothers
  have hoffset := h.start_lt_stop
  have hleft : ∀ v : Token, s.guard.start ≤ v.start →
      commentsAmong (as ++ a :: bs) v = commentsAmong (a :: bs) v :=
    fun v hv => commentsAmong_append_left fun b hb => (has b hb).trans (hoffset.1.trans hv)
  have hfront : commentsAmong (a :: bs) s.guard = s.guard.comments := by
    refine commentsAmong_of_lt fun b hb => ?_
    rcases List.mem_cons.mp hb with rfl | hb
    · exact hguard
    · exact hbs b hb
  have hfirst : commentsAmong (a :: bs) t = t.comments ++ a.type.comments := by
    rw [commentsAmong_cons (Ascription.covers_iff.mpr (by omega)), if_pos ht]
  have hrest : ts.flatMap (commentsAmong (as ++ a :: bs)) = [] := by
    rw [List.flatMap_eq_nil_iff]
    intro v hv
    obtain ⟨hstart, hstop⟩ := hothers v hv
    rw [hleft v (by omega), commentsAmong_cons (Ascription.covers_iff.mpr (by omega)),
      if_neg (Nat.ne_of_gt hstart)]
  rw [hts, List.flatMap_cons, List.flatMap_cons, hrest, hleft _ (Nat.le_refl _), hfront,
    hleft t (by omega), hfirst, List.append_nil]

end Segment

/-! ## The revised text -/

namespace Revision

variable {w : Revision} {growth : Ascription → Nat} {K : List Chunk} {Y : List Char}

theorem changes_start {offset : Nat} (h : Placed offset (allTokens K)) :
    ∀ a ∈ SourceFile.changes w K, offset ≤ a.span.start := by
  intro a ha
  obtain ⟨hmem, -⟩ := List.mem_filter.mp ha
  obtain ⟨b, hb, rfl⟩ := List.mem_map.mp hmem
  exact h.starts.2 b hb

/-- The comments of a revised text, told by the tokens of the old one. -/
theorem comments_news
    (hvariant : ∀ s, Chunk.typed s ∈ K →
      Variant (growth s.ascription) s.ascription.parsed (w.type s.ascription))
    (hw : ∀ s, Chunk.typed s ∈ K →
      s.Respelt (growth s.ascription) (w.type s.ascription) (w.signs s))
    (hlex : Lexes ((allTokens K).map Token.sign) Y) {offset : Nat}
    (hplaced : Placed offset (allTokens K)) {as : List Ascription}
    (has : ∀ a ∈ as, a.span.stop ≤ offset) :
    (w.news K).flatMap Sign.comments =
      (allTokens K).flatMap (commentsAmong (as ++ SourceFile.changes w K)) := by
  induction K generalizing offset as with
  | nil => rfl
  | cons k K ih =>
    have hvariantK : ∀ s, Chunk.typed s ∈ K →
        Variant (growth s.ascription) s.ascription.parsed (w.type s.ascription) :=
      fun s hs => hvariant s (List.mem_cons_of_mem k hs)
    have hwK : ∀ s, Chunk.typed s ∈ K →
        s.Respelt (growth s.ascription) (w.type s.ascription) (w.signs s) :=
      fun s hs => hw s (List.mem_cons_of_mem k hs)
    have htokens : allTokens (k :: K) = k.tokens ++ allTokens K := List.flatMap_cons
    rw [htokens] at hlex hplaced ⊢
    rw [List.map_append] at hlex
    obtain ⟨hlexk, hlexK⟩ := Lexes.append_iff.mp hlex
    obtain ⟨hk, hK⟩ := Placed.append_iff.mp hplaced
    have hstarts := changes_start (w := w) hK
    rw [news_cons, List.flatMap_append, List.flatMap_append]
    -- Where nothing changes, the tokens of the chunk keep their comments.
    have hpass := commentsAmong_between hk has hstarts
    have hrest := ih hvariantK hwK hlexK hK fun a ha => (has a ha).trans (Nat.le_add_right _ _)
    cases k with
    | kept t =>
      rw [show SourceFile.changes w (.kept t :: K) = SourceFile.changes w K from rfl, ← hrest,
        hpass]
      rfl
    | typed s =>
      rw [SourceFile.changes_typed]
      split
      next hsame =>
        rw [← hrest, hpass]
        have hsigns := (hw s List.mem_cons_self).unchanged hsame
        simp [chunk, hsigns, Chunk.tokens, comments_sign, List.flatMap_map]
      next hdiffers =>
        obtain ⟨t, ts, hts⟩ := s.exists_tokens
        have hstop := s.stop_eq_of_placed hk
        have hafter : ∀ a ∈ as ++ [w.update s.ascription], a.span.stop ≤
            offset + Text.byteLength (Token.allChars (Chunk.typed s).tokens) := by
          intro a ha
          rcases List.mem_append.mp ha with ha | ha
          · exact (has a ha).trans (Nat.le_add_right _ _)
          · obtain rfl := List.mem_singleton.mp ha
            exact Nat.le_of_eq hstop
        have hmore := ih hvariantK hwK hlexK hK hafter
        rw [List.append_assoc, List.singleton_append] at hmore
        have hbehind : ∀ b ∈ SourceFile.changes w K, s.guard.start < b.span.start := by
          intro b hb
          have hb := hstarts b hb
          obtain ⟨hguard, -, hlt, -⟩ := Segment.starts_of_placed hk hts
          have htokens : (Chunk.typed s).tokens = s.guard :: s.tokens := rfl
          rw [htokens] at hb
          omega
        have hspan : (w.update s.ascription).span = s.ascription.span := rfl
        have hfront := Segment.comments_replaced hk hts hspan has hbehind
        rw [← hmore]
        congr 1
        have hsigns := (hw s List.mem_cons_self).comments_eq (hvariant s List.mem_cons_self)
          hlexk.2 hdiffers hts
        rw [chunk, List.flatMap_cons, hsigns]
        exact hfront.symm

/-- Revising a text adds no comment and moves none. -/
theorem comments_news_sublist
    (hvariant : ∀ s, Chunk.typed s ∈ K →
      Variant (growth s.ascription) s.ascription.parsed (w.type s.ascription))
    (hw : ∀ s, Chunk.typed s ∈ K →
      s.Respelt (growth s.ascription) (w.type s.ascription) (w.signs s))
    (hlex : Lexes ((allTokens K).map Token.sign) Y) :
    ((w.news K).flatMap Sign.comments).Sublist ((allTokens K).flatMap Token.comments) := by
  induction K with
  | nil => exact .slnil
  | cons k K ih =>
    have htokens : allTokens (k :: K) = k.tokens ++ allTokens K := List.flatMap_cons
    rw [htokens] at hlex ⊢
    rw [List.map_append] at hlex
    obtain ⟨hlexk, hlexK⟩ := Lexes.append_iff.mp hlex
    rw [news_cons, List.flatMap_append, List.flatMap_append]
    refine List.Sublist.append ?_ (ih (fun s hs => hvariant s (List.mem_cons_of_mem k hs))
      (fun s hs => hw s (List.mem_cons_of_mem k hs)) hlexK)
    cases k with
    | kept t => exact List.Sublist.refl _
    | typed s =>
      have htype := (hw s List.mem_cons_self).comments_sublist (hvariant s List.mem_cons_self)
        hlexk.2
      exact (List.Sublist.refl s.guard.comments).append htype

end Revision

/-! ## The file that is written -/

namespace SourceFile

variable {name text : String} {file : SourceFile}

/-- The tokens of a type among those of a text. -/
theorem exists_place_of_mem {K : List Chunk} {offset : Nat} (h : Placed offset (allTokens K))
    {s : Segment} (hs : Chunk.typed s ∈ K) :
    ∃ (A B : List Token) (place : Nat), allTokens K = A ++ ((s.guard :: s.tokens) ++ B) ∧
      place = offset + Text.byteLength (Token.allChars A) ∧ Placed place (s.guard :: s.tokens) := by
  obtain ⟨A, B, rfl⟩ := List.append_of_mem hs
  have hsplit : allTokens (A ++ .typed s :: B) =
      allTokens A ++ ((s.guard :: s.tokens) ++ allTokens B) := by
    simp [allTokens, Chunk.tokens]
  rw [hsplit, Placed.append_iff, Placed.append_iff] at h
  exact ⟨_, _, _, hsplit, rfl, h.2.1⟩

/-- All types end where the tokens do, or before. -/
theorem stop_le_of_placed {K : List Chunk} {offset : Nat} (h : Placed offset (allTokens K))
    {s : Segment} (hs : Chunk.typed s ∈ K) :
    s.ascription.span.stop ≤ offset + Text.byteLength (Token.allChars (allTokens K)) := by
  obtain ⟨A, B, place, htokens, hplace, hplaced⟩ := exists_place_of_mem h hs
  rw [s.stop_eq_of_placed hplaced, htokens, hplace]
  simp only [Token.allChars, List.flatMap_append, Text.byteLength_append]
  omega

/-- The tokens of a type behind its first are inside it. -/
theorem sublist_coversGap {K : List Chunk} {offset : Nat} (h : Placed offset (allTokens K))
    {s : Segment} (hs : Chunk.typed s ∈ K) {t : Token} {ts : List Token}
    (hts : s.tokens = t :: ts) {a : Ascription} (ha : a.span = s.ascription.span) :
    ts.Sublist ((allTokens K).filter a.coversGap) := by
  obtain ⟨A, B, place, htokens, -, hplaced⟩ := exists_place_of_mem h hs
  obtain ⟨-, -, -, hinside⟩ := Segment.starts_of_placed hplaced hts
  have hsub : ts.Sublist (allTokens K) := by
    rw [htokens, hts]
    refine List.Sublist.trans ?_ (List.sublist_append_right A _)
    exact ((List.sublist_append_left ts B).cons t).cons s.guard
  have hall : ts.filter a.coversGap = ts := by
    rw [List.filter_eq_self]
    intro v hv
    obtain ⟨hstart, hstop⟩ := hinside v hv
    simp [Ascription.coversGap, ha, hstart, hstop]
  rw [← hall]
  exact hsub.filter a.coversGap

theorem exists_of_mem_changes {K : List Chunk} {w : Revision} {a : Ascription}
    (ha : a ∈ changes w K) : ∃ s, Chunk.typed s ∈ K ∧ a = w.update s.ascription := by
  obtain ⟨hmem, -⟩ := List.mem_filter.mp ha
  obtain ⟨b, hb, rfl⟩ := List.mem_map.mp hmem
  obtain ⟨k, hk, hbk⟩ := List.mem_flatMap.mp hb
  cases k with
  | kept t => contradiction
  | typed s => exact ⟨s, hk, by rw [List.mem_singleton.mp hbk]⟩

/-- The last token starts where the others end, or behind. -/
theorem le_start_final {K : List Chunk} (hpending : (TokenStream.scan text).pending = allTokens K) :
    (TokenStream.body text).1 + Text.byteLength (Token.allChars (allTokens K)) ≤
      (TokenStream.scan text).final.start := by
  have hall : (TokenStream.scan text).toList.flatMap Token.fullChars = (TokenStream.body text).2 :=
    TokenStream.flatMap_fullChars_scanFrom _ _
  have hstart : (TokenStream.scan text).final.start =
      (TokenStream.body text).1 + Text.byteLength (TokenStream.body text).2 :=
    TokenStream.start_final_scanFrom _ _
  rw [hstart, ← hall, TokenStream.toList, List.flatMap_append, hpending, Text.byteLength_append,
    Token.allChars]
  omega

namespace Revised

variable {w : Revision} {growth : Ascription → Nat} {K : List Chunk} {f : SourceFile}
  {a : Ascription}

theorem toList_eq (h : Revised text w growth K) :
    (TokenStream.scan text).toList = allTokens K ++ [(TokenStream.scan text).final] := by
  rw [TokenStream.toList, h.pending_eq]

/-- Behind all types stands the last token, with its comments. -/
theorem commentsAmong_final (h : Revised text w growth K) :
    commentsAmong (changes w K) (TokenStream.scan text).final =
      (TokenStream.scan text).final.comments := by
  rw [← List.append_nil (changes w K)]
  refine commentsAmong_append_left fun a ha => ?_
  obtain ⟨s, hs, rfl⟩ := exists_of_mem_changes ha
  exact (stop_le_of_placed h.placed hs).trans (le_start_final h.pending_eq)

/-- The comments of the text that is written are those of the revised signs. -/
theorem comments_render_eq (h : Revised text w growth K) (htext : f.text = text)
    (hf : Declaration.ascriptionsList f.declarations = (allAscriptions K).map w.update) :
    Text.comments f.render =
      (w.news K).flatMap Sign.comments ++ (TokenStream.scan text).final.comments := by
  have hnew := h.at_render htext hf
  have hsigns := hnew.signs
  have hlast := hnew.final
  rw [pending_start] at hsigns
  rw [final_start] at hlast
  rw [Text.comments, TokenStream.comments, TokenStream.toList, List.flatMap_append,
    List.flatMap_singleton, ← comments_map_sign, hsigns, ← comments_sign, hlast]
  rfl

/-- A type that is replaced has the comments of the old one, which are inside it. -/
theorem comments_of_mem_changes (h : Revised text w growth K) (htext : f.text = text)
    (ha : a ∈ changes w K) :
    a.type.comments = a.parsed.comments ∧ a.parsed.comments.Sublist (f.commentsInside a) := by
  obtain ⟨s, hs, rfl⟩ := exists_of_mem_changes ha
  obtain ⟨t, ts, hts⟩ := s.exists_tokens
  obtain ⟨X, hX⟩ := lexes_of_mem h.lexes hs
  refine ⟨(h.variant s hs).comments_eq, (Segment.comments_sublist hX hts).trans ?_⟩
  refine List.Sublist.flatMap ?_ Token.comments
  rw [htext, h.toList_eq, List.filter_append]
  exact (sublist_coversGap h.placed hs hts rfl).trans (List.sublist_append_left _ _)

end Revised

/-- The comments of a file some of whose types are replaced by variants. -/
theorem comments_render (hparse : parse name text = .ok file) {type : Ascription → TypeExpr}
    {growth : Ascription → Nat}
    (hvariant : ∀ a ∈ Declaration.ascriptionsList file.declarations,
      Variant (growth a) a.parsed (type a))
    {f : SourceFile} (htext : f.text = text)
    (hf : Declaration.ascriptionsList f.declarations =
      (Declaration.ascriptionsList file.declarations).map fun a => { a with type := type a }) :
    Text.comments f.render = (TokenStream.scan text).toList.flatMap f.commentsAt ∧
      (∀ a ∈ f.ascriptions, a.isChanged = true → a.type.comments = a.parsed.comments ∧
        a.parsed.comments.Sublist (f.commentsInside a)) ∧
      (Text.comments f.render).Sublist (Text.comments text) := by
  obtain ⟨hrun, rfl⟩ := parse_eq_ok_iff.mp hparse
  obtain ⟨w, K, rfl, -, hrevised⟩ := exists_revised hrun hvariant False
  rw [← hrevised.ascriptions_eq] at hf
  have hchanges : f.ascriptions.filter Ascription.isChanged = changes w K :=
    changes_eq hrevised.placed hf
  have hrender := hrevised.comments_render_eq htext hf
  refine ⟨?_, ?_, ?_⟩
  · have hnone : ∀ a ∈ ([] : List Ascription), a.span.stop ≤ (TokenStream.body text).1 :=
      fun _ ha => absurd ha List.not_mem_nil
    have hnews := Revision.comments_news hrevised.variant hrevised.respelt hrevised.lexes
      hrevised.placed hnone
    rw [hrender, hnews, hrevised.toList_eq, List.flatMap_append, List.flatMap_singleton,
      List.nil_append]
    unfold commentsAt
    rw [hchanges, hrevised.commentsAmong_final]
  · intro a ha hchanged
    apply hrevised.comments_of_mem_changes htext
    rw [← hchanges]
    exact List.mem_filter.mpr ⟨ha, hchanged⟩
  · rw [hrender, Text.comments, TokenStream.comments, hrevised.toList_eq, List.flatMap_append,
      List.flatMap_singleton]
    exact (Revision.comments_news_sublist hrevised.variant hrevised.respelt hrevised.lexes).append
      (List.Sublist.refl _)

end SourceFile

namespace Migration

open SourceFile

/-- A comment behind a type in a tuple is lost with a qualifier in front of that
type, although it is outside all of its texts. -/
theorem comment_between_parts_dropped :
    let m : Migration := ⟨fun n => n == "P", ⟨.strict, false⟩⟩
    let text := "let x: (P /* c */, Q)"
    ∃ file, parse "f" text = .ok file ∧ (m.file file).render = "let x: (any P, Q)" ∧
      Text.comments text = ["/* c */"] ∧ Text.comments (m.file file).render = [] ∧
      Text.comments (m.file file).render ≠ Text.comments text := by
  intro m text
  have hparse : parse "f" text = .ok ⟨"f", text, (SourceFile.run text).1⟩ :=
    parse_eq_ok_iff.mpr ⟨by decide +kernel, rfl⟩
  have hrender : (m.file ⟨"f", text, (SourceFile.run text).1⟩).render = "let x: (any P, Q)" := by
    decide +kernel
  refine ⟨_, hparse, hrender, by decide +kernel, ?_, ?_⟩
  · rw [hrender]
    decide +kernel
  · rw [hrender]
    decide +kernel

/-- Migrating a file keeps every comment outside the types that change, in order.
Of the comments inside such a type it keeps those of the texts of the type, which
are the same before and after, and no others; and it adds none. -/
theorem comments_of_written_file {name text : String} {file : SourceFile}
    (hparse : parse name text = .ok file) (m : Migration) :
    Text.comments (m.file file).render =
        (TokenStream.scan text).toList.flatMap (m.file file).commentsAt ∧
      (∀ a ∈ (m.file file).ascriptions, a.isChanged = true →
        a.type.comments = a.parsed.comments ∧
          a.parsed.comments.Sublist ((m.file file).commentsInside a)) ∧
      (Text.comments (m.file file).render).Sublist (Text.comments text) := by
  obtain ⟨type, htype⟩ := m.exists_types hparse
  have htext : file.text = text := text_of_parse hparse
  exact comments_render hparse (m.variant_of_types hparse htype) htext
    (m.ascriptionsList_of_types htype)

/-- Comments in front of a type, in a label, between a type and a parenthesis, in
a type kept as written, and behind it all. -/
theorem comments_of_written_file_function :
    let m : Migration := ⟨fun n => n == "P", ⟨.strict, false⟩⟩
    let text := "let g: /* a */ (_ /* b */ p: P /* c */) -> [P /* d */] // e"
    let file : SourceFile := ⟨"f", text, (SourceFile.run text).1⟩
    let f := m.file file
    parse "f" text = .ok file ∧
      f.render = "let g: /* a */ (_ /* b */ p: any P) -> [P /* d */] // e" ∧
      Text.comments f.render = (TokenStream.scan text).toList.flatMap f.commentsAt ∧
      Text.comments f.render = ["/* a */", "/* b */", "/* d */", "// e"] ∧
      (Text.comments f.render).Sublist (Text.comments text) := by
  intro m text file f
  have hparse : parse "f" text = .ok file := parse_eq_ok_iff.mpr ⟨by decide +kernel, rfl⟩
  have hrender : f.render = "let g: /* a */ (_ /* b */ p: any P) -> [P /* d */] // e" := by
    decide +kernel
  obtain ⟨hcomments, -, hsublist⟩ := comments_of_written_file hparse m
  refine ⟨hparse, hrender, hcomments, ?_, hsublist⟩
  rw [hrender]
  decide +kernel

end Migration

end AnySome
