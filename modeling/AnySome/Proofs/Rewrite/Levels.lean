import AnySome.Proofs.Rewrite.Revised
import AnySome.Proofs.Run.Finish

/-!
# The levels of a type in its place

How many levels a type has is told by reading it once more, in its place, with
a limit of its own: the levels are the least limit with which nothing is wrong.
Behind the type nothing matters but the sign that ends it.

## Main results

* `SourceFile.readsWithin_iff` — the type of a segment is read within a limit
  if that is at least the number of its levels.
-/

namespace AnySome

open Cursor Chunk TypeExpr

/-! ## Places -/

namespace Placed

variable {offset : Nat} {t : Token} {ts us : List Token}

theorem le_start (h : Placed offset (ts ++ t :: us)) : offset ≤ t.start := by
  induction ts generalizing offset with
  | nil => exact h.start_lt_stop.1
  | cons u ts ih =>
    have hu : offset ≤ u.start ∧ u.start < u.stop := h.start_lt_stop
    have hrest := ih h.2.2
    omega

/-- A token is found by the byte at which it starts. -/
theorem dropWhile_start (h : Placed offset (ts ++ t :: us)) :
    (ts ++ t :: us).dropWhile (fun u => u.start < t.start) = t :: us := by
  induction ts generalizing offset with
  | nil =>
    rw [List.nil_append, List.dropWhile_cons_of_neg]
    simp
  | cons u ts ih =>
    have hu : offset ≤ u.start ∧ u.start < u.stop := h.start_lt_stop
    have hrest : Placed u.stop (ts ++ t :: us) := h.2.2
    have hle := hrest.le_start
    rw [List.cons_append, List.dropWhile_cons_of_pos]
    · exact ih hrest
    · rw [decide_eq_true_eq]
      omega

end Placed

namespace SourceFile

/-- The cursor at the ascription in its text. -/
def place (text : String) (a : Ascription) : Cursor :=
  Cursor.start ⟨(TokenStream.scan text).pending.dropWhile (fun t => t.start < a.span.start),
    (TokenStream.scan text).final⟩

/-- The type of the ascription is read in its place with at most `n` levels. -/
def ReadsWithin (text : String) (n : Nat) (a : Ascription) : Prop :=
  (parser n (place text a)).2.findings = []

instance (text : String) (n : Nat) (a : Ascription) : Decidable (ReadsWithin text n a) :=
  inferInstanceAs (Decidable (_ = _))

variable {text : String} {K : List Chunk} {s : Segment}

/-- The cursor at a segment, in front of what stands behind it. -/
theorem at_place (hclean : (Cursor.start (TokenStream.scan text)).Clean)
    (hcut : Cut (TokenStream.scan text).final.sign K (TokenStream.scan text).pending [])
    (hs : Chunk.typed s ∈ K) :
    ∃ U, (place text s.ascription).At (TokenStream.scan text).final.sign
        (s.tokens.map Token.sign ++ U) ∧
      s.next = U.headD (TokenStream.scan text).final.sign := by
  obtain ⟨before, behind, hpending, hnext⟩ := hcut.exists_place hs
  obtain ⟨t, ts, hts⟩ := s.exists_tokens
  have hstart : s.ascription.span.start = t.start := by rw [s.span_eq, hts]; rfl
  have hsplit : (TokenStream.scan text).pending =
      (before ++ [s.guard]) ++ t :: (ts ++ behind) := by
    rw [hpending, hts]
    simp
  have hplaced := Placed.scanFrom (TokenStream.body text).1 (TokenStream.body text).2
  rw [show (TokenStream.scanFrom _ _).pending = _ from hsplit] at hplaced
  have hdrop : (TokenStream.scan text).pending.dropWhile
      (fun u => u.start < s.ascription.span.start) = s.tokens ++ behind := by
    rw [hsplit, hstart, hplaced.dropWhile_start, hts]
    rfl
  have hmem : ∀ u ∈ s.tokens ++ behind, u ∈ (Cursor.start (TokenStream.scan text)).pending := by
    intro u hu
    rw [pending_start, hpending]
    exact List.mem_append_right before (List.mem_cons_of_mem s.guard hu)
  refine ⟨behind.map Token.sign, ⟨?_, ?_, ?_⟩, hnext⟩
  · unfold place
    rw [hdrop]
    apply clean_start_of
    · exact fun u hu => hclean.pending u (hmem u hu)
    · exact fun u hu => hclean.kinds u (hmem u hu)
    · exact final_start (TokenStream.scan text) ▸ hclean.final
    · exact final_start (TokenStream.scan text) ▸ hclean.finalKind
  · unfold place
    rw [pending_start, hdrop, List.map_append]
  · unfold place
    rw [final_start]

/-- The type of a segment is read within a limit if the limit is at least the
number of its levels. -/
theorem readsWithin_iff (hclean : (Cursor.start (TokenStream.scan text)).Clean)
    (hcut : Cut (TokenStream.scan text).final.sign K (TokenStream.scan text).pending [])
    (hs : Chunk.typed s ∈ K) {n : Nat} : ReadsWithin text n s.ascription ↔ s.levels ≤ n := by
  obtain ⟨U, hat, hnext⟩ := at_place hclean hcut hs
  have hstops := s.stops
  rw [hnext] at hstops
  constructor
  · intro hread
    obtain ⟨T, V, e, hTV, _, hspells, hstops', _⟩ := sound_of_depth n hat hread
    -- With a limit that is enough for both, one run reads the two spellings.
    have hfirst := complete_within (Nat.le_max_left n s.levels) hspells hstops' (hTV ▸ hat)
    have hsecond := complete_within (Nat.le_max_right n s.levels) s.spells hstops hat
    have htype : (parser n (place text s.ascription)).1 = s.ascription.parsed :=
      hfirst.1.symm.trans hsecond.1
    have hbehind : V = U := hfirst.2.signs.symm.trans hsecond.2.signs
    subst hbehind
    have hsigns : s.tokens.map Token.sign = T := List.append_cancel_right hTV
    rw [htype, ← hsigns] at hspells
    exact s.least hspells (by rwa [hnext])
  · intro hlevels
    exact (complete_within hlevels s.spells hstops hat).2.clean.findings

end SourceFile

end AnySome
