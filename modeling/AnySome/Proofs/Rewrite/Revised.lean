import AnySome.Proofs.Respell.Canonical
import AnySome.Proofs.Rewrite.Splice

/-!
# The signs of a revised text

Where a type is replaced by a variant of itself in canonical form, the tokens
around it stay what they are. The token in front of a type is a colon, an
equals sign or an arrow, which is read whatever stands behind it, and no token
further ahead depends on what stands behind that. The new type ends with the
word or sign with which the old one ended, so what stands behind is as far
from it as before.

## Main results

* `Segment.exists_respelt` — every variant can stand in the place of a type.
* `Revision.lexes_news` — the signs of a revised text are read from it.
-/

namespace AnySome

open Cursor Chunk TypeExpr

/-! ## Tokens that announce types -/

theorem firm_of_isPunctuation {k : Kind} {text : String} {Y : List Char}
    (h : TextReads k text Y) (hk : isPunctuation k = true)
    (hpunct : Lexeme.punctuation? (punctuationChar k) = some k) : Firm k text := by
  rw [h.text_eq hk]
  exact firm_punctuation hpunct

/-- A token that announces a type is read whatever stands behind it. -/
theorem firm_of_isGuard {k : Kind} {text : String} {Y : List Char} (h : TextReads k text Y)
    (hk : isGuard k = true) : Firm k text := by
  cases k with
  | colon => exact firm_of_isPunctuation h rfl rfl
  | equals => exact firm_of_isPunctuation h rfl rfl
  | arrow =>
    rw [h.text_eq_arrow]
    exact firm_arrow
  | _ => contradiction

/-- No token in front of it depends on what stands behind it. -/
theorem exists_hinge_of_isGuard {k : Kind} {text : String} {Y : List Char}
    (h : TextReads k text Y) (hk : isGuard k = true) :
    ∃ R c, text.toList = R ++ [c] ∧ isHinge c = true := by
  cases k with
  | colon => exact ⟨[], ':', by rw [h.text_eq rfl]; decide, rfl⟩
  | equals => exact ⟨[], '=', by rw [h.text_eq rfl]; decide, rfl⟩
  | arrow => exact ⟨['-'], '>', by rw [h.text_eq_arrow]; decide, rfl⟩
  | _ => contradiction

/-! ## Other types in the place of a type -/

/-- The signs spell `u`, with at most `g` levels more, and can stand in the place
of the type. -/
structure Segment.Respelt (s : Segment) (g : Nat) (u : TypeExpr) (S : List Sign) : Prop
    extends s.Written u S where
  spells : Spells (s.levels + g) u S s.ending
  reads : ∀ ⦃X : List Char⦄, Lexes (s.tokens.map Token.sign) X → Lexes S X
  part : u ≠ s.ascription.parsed →
    ∃ T, Part T u.print ∧ S = regap (s.tokens.headD s.guard).gap T

/-- Every variant of a type that is read somewhere can stand in its place. -/
theorem Segment.exists_respelt (s : Segment) {Y : List Char}
    (hY : Lexes (s.tokens.map Token.sign) Y) {g : Nat} {u : TypeExpr}
    (hu : Variant g s.ascription.parsed u) : ∃ S, s.Respelt g u S := by
  by_cases hsame : u = s.ascription.parsed
  · subst hsame
    exact ⟨_, ⟨fun _ => rfl, fun h => absurd rfl h⟩, s.spells.le (by omega), fun _ h => h,
      fun h => absurd rfl h⟩
  · obtain ⟨T, hT, hspells⟩ := s.spells.respells hY hu
    obtain ⟨t, ts, hts⟩ := s.exists_tokens
    have hgap : Trivia.IsGap t.gap := by
      rw [hts] at hY
      exact hY.1.gap
    refine ⟨regap t.gap T, ⟨fun h => absurd h hsame, fun _ => ?_⟩, hspells.regap t.gap, ?_,
      fun _ => ⟨T, hT.part, by rw [hts]; rfl⟩⟩
    · rw [chars_regap hT.ne_nil, hT.written_eq, hts]
      rfl
    · intro X hX
      refine hT.settled.regap hgap X (hX.readsLast.congr ?_)
      rw [lastOf_regap, hT.last]

/-! ## The text as a whole -/

namespace Revision

variable {w : Revision} {growth : Ascription → Nat} {K : List Chunk} {Y : List Char}

theorem chars_tokens (ts : List Token) :
    (ts.map Token.sign).flatMap Sign.chars = Token.allChars ts := by
  simp [Token.allChars, List.flatMap_map]

/-- A text and its revision are equal up to the first type. -/
theorem agree_news (h : Lexes ((allTokens K).map Token.sign) Y) :
    Agree (Token.allChars (allTokens K) ++ Y) ((w.news K).flatMap Sign.chars ++ Y) := by
  induction K with
  | nil => exact .refl _
  | cons k K ih =>
    cases k with
    | kept t =>
      have hrest := (ih h.2).append t.fullChars
      simpa [Token.allChars, allTokens, Chunk.tokens, chunk] using hrest
    | typed s =>
      obtain ⟨R, c, htext, hc⟩ := exists_hinge_of_isGuard h.1.text s.isGuard_guard
      have hchars : s.guard.fullChars = (s.guard.gapChars ++ R) ++ [c] := by
        rw [Token.fullChars, show s.guard.text.toList = R ++ [c] from htext, List.append_assoc]
      have hagree := Agree.hinge (s.guard.gapChars ++ R) hc
        (Token.allChars s.tokens ++ (Token.allChars (allTokens K) ++ Y))
        ((w.signs s).flatMap Sign.chars ++ ((w.news K).flatMap Sign.chars ++ Y))
      simpa [Token.allChars, allTokens, Chunk.tokens, chunk, hchars] using hagree

/-- The signs of a revised text are read from it. -/
theorem lexes_news
    (hw : ∀ s, Chunk.typed s ∈ K →
      s.Respelt (growth s.ascription) (w.type s.ascription) (w.signs s))
    (h : Lexes ((allTokens K).map Token.sign) Y) : Lexes (w.news K) Y := by
  induction K with
  | nil => trivial
  | cons k K ih =>
    have hwK : ∀ s, Chunk.typed s ∈ K →
        s.Respelt (growth s.ascription) (w.type s.ascription) (w.signs s) :=
      fun s hs => hw s (List.mem_cons_of_mem k hs)
    cases k with
    | kept t =>
      have hagree := agree_news (w := w) h.2
      rw [← chars_tokens] at hagree
      exact ⟨⟨h.1.gap, h.1.text.agree hagree⟩, ih hwK h.2⟩
    | typed s =>
      have hrest : Lexes (s.tokens.map Token.sign ++ (allTokens K).map Token.sign) Y := by
        rw [← List.map_append]
        exact h.2
      obtain ⟨hs, hK⟩ := Lexes.append_iff.mp hrest
      have hagree := agree_news (w := w) hK
      rw [← chars_tokens] at hagree
      have hnew : Lexes (w.signs s ++ w.news K) Y :=
        Lexes.append_iff.mpr ⟨(hw s List.mem_cons_self).reads (hs.agree hagree), ih hwK hK⟩
      exact ⟨⟨h.1.gap, firm_of_isGuard h.1.text s.isGuard_guard _⟩, hnew⟩

end Revision

end AnySome
