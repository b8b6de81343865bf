import AnySome.Proofs.Lexical.Gap
import AnySome.Proofs.LineEnds.Coding

/-!
# Gaps with other line ends

A line end that stands by itself becomes two pieces of a gap. A line comment
takes the new carriage return with it, so that the line end behind it is one
piece still. A block comment is converted like any text, since its marks are
told by stars and slashes alone. What is asked about a gap does not change: is
there any, does it break the line, and is a comment in it unclosed.

## Main results

* `Trivia.gap_crlf` — the gap at the start of a converted text.
-/

namespace AnySome

open Text

/-! ## Block comments -/

namespace Trivia

/-- A block comment is converted as a whole. -/
theorem blockExtent_crlf (cs : List Char) :
    Extent.Written lineEnds 0 0 cs (blockExtent 1 0 cs) (blockExtent 1 0 (crlfChars cs)) := by
  rw [← write_lineEnds]
  exact blockExtent_write lineEnds 1 0 0 cs

theorem take_blockExtent_crlf (cs : List Char) :
    (crlfChars cs).take (blockExtent 1 0 (crlfChars cs)).length =
      crlfChars (cs.take (blockExtent 1 0 cs).length) := by
  have htake := (blockExtent_crlf cs).take_eq
  rwa [write_lineEnds, write_lineEnds] at htake

theorem drop_blockExtent_crlf (cs : List Char) :
    (crlfChars cs).drop (blockExtent 1 0 (crlfChars cs)).length =
      crlfChars (cs.drop (blockExtent 1 0 cs).length) := by
  have hdrop := (blockExtent_crlf cs).drop_eq
  rwa [write_lineEnds, write_lineEnds] at hdrop

/-! ## Pieces -/

theorem any_isLineBreak_crlf (cs : List Char) :
    (crlfChars cs).any isLineBreak = cs.any isLineBreak := by
  rw [← write_lineEnds]
  exact any_isLineBreak_write lineEnds cs

theorem scan?_crlf_none {cs : List Char} (h : scan? cs = none) : scan? (crlfChars cs) = none := by
  rw [← write_lineEnds]
  exact scan?_write_none lineEnds h

/-! ## Gaps -/

/-- Two gaps give the same answers to all that is asked about them. -/
structure Matches (g g' : List Trivia) : Prop where
  isEmpty_eq : g'.isEmpty = g.isEmpty
  breaksLine_eq : g'.any breaksLine = g.any breaksLine
  isUnclosed_eq : g'.any isUnclosed = g.any isUnclosed

namespace Matches

variable {g g' : List Trivia}

theorem refl (g : List Trivia) : Matches g g := ⟨rfl, rfl, rfl⟩

theorem cons {t t' : Trivia} (h : Matches g g') (hbreak : t'.breaksLine = t.breaksLine)
    (hclosed : t'.isUnclosed = t.isUnclosed) : Matches (t :: g) (t' :: g') := by
  refine ⟨rfl, ?_, ?_⟩
  · rw [List.any_cons, List.any_cons, hbreak, h.breaksLine_eq]
  · rw [List.any_cons, List.any_cons, hclosed, h.isUnclosed_eq]

end Matches

theorem gap_lineBreak {c : Char} (h : isLineBreak c = true) (cs : List Char) :
    gap (c :: cs) = (.lineBreak c :: (gap cs).1, (gap cs).2) :=
  gap_of_some (t := .lineBreak c) (scan?_of_isLineBreak h cs)

theorem gap_blank {c : Char} (h : isBlank c = true) (cs : List Char) :
    gap (c :: cs) = (.blank c :: (gap cs).1, (gap cs).2) :=
  gap_of_some (t := .blank c) (scan?_of_isBlank h cs)

theorem gap_lineComment {body : List Char} (hbody : '\n' ∉ body) (cs : List Char) :
    gap ('/' :: '/' :: (body ++ '\n' :: cs)) =
      (.lineComment ('/' :: '/' :: body) :: .lineBreak '\n' :: (gap cs).1, (gap cs).2) := by
  have htake : (body ++ '\n' :: cs).takeWhile (· ≠ '\n') = body := by
    rw [List.takeWhile_append_of_pos (by simpa using fun c hc => ne_of_mem_of_not_mem hc hbody)]
    simp
  have hscan : scan? ((lineComment ('/' :: '/' :: body)).chars ++ '\n' :: cs) =
      some (.lineComment ('/' :: '/' :: (body ++ '\n' :: cs).takeWhile (· ≠ '\n'))) := rfl
  rw [htake] at hscan
  have hgap := gap_of_some hscan
  rw [gap_lineBreak rfl] at hgap
  exact hgap

/-- In the last line of a text. -/
theorem gap_lastLine {body : List Char} (hbody : '\n' ∉ body) :
    gap ('/' :: '/' :: body) = ([.lineComment ('/' :: '/' :: body)], []) := by
  have htake : body.takeWhile (· ≠ '\n') = body := by
    rw [List.takeWhile_eq_self_iff]
    simpa using fun c hc => ne_of_mem_of_not_mem hc hbody
  have hscan : scan? ((lineComment ('/' :: '/' :: body)).chars ++ []) =
      some (.lineComment ('/' :: '/' :: (body ++ []).takeWhile (· ≠ '\n'))) := rfl
  rw [List.append_nil body, htake] at hscan
  have hgap := gap_of_some hscan
  rw [List.append_nil, gap_of_none (show scan? [] = none from rfl)] at hgap
  exact hgap

theorem gap_block (cs : List Char) :
    gap ('/' :: '*' :: cs) =
      (.blockComment ('/' :: '*' :: cs.take (blockExtent 1 0 cs).length)
          (blockExtent 1 0 cs).closed :: (gap (cs.drop (blockExtent 1 0 cs).length)).1,
        (gap (cs.drop (blockExtent 1 0 cs).length)).2) := by
  have hsplit := List.take_append_drop (blockExtent 1 0 cs).length cs
  have hscan : scan? ('/' :: '*' :: cs) =
      some (.blockComment ('/' :: '*' :: cs.take (blockExtent 1 0 cs).length)
        (blockExtent 1 0 cs).closed) := rfl
  have hfront : (blockComment ('/' :: '*' :: cs.take (blockExtent 1 0 cs).length)
      (blockExtent 1 0 cs).closed).chars ++ cs.drop (blockExtent 1 0 cs).length =
      '/' :: '*' :: cs := by
    rw [chars, List.cons_append, List.cons_append, hsplit]
  rw [← hfront] at hscan
  have hgap := gap_of_some hscan
  rw [hfront] at hgap
  exact hgap

/-- The gap at the front of the conversion ends where that of the text does, and
matches it. -/
structure GapConverts (cs : List Char) : Prop where
  rest_eq : (gap (crlfChars cs)).2 = crlfChars (gap cs).2
  matches_gap : Matches (gap cs).1 (gap (crlfChars cs)).1

namespace GapConverts

variable {c : Char} {cs body : List Char}

theorem none (h : scan? cs = none) : GapConverts cs := by
  constructor
  · rw [gap_of_none h, gap_of_none (scan?_crlf_none h)]
  · rw [gap_of_none h, gap_of_none (scan?_crlf_none h)]
    exact .refl _

theorem lineBreak (hc : isLineBreak c = true) (h : GapConverts cs) : GapConverts (c :: cs) := by
  by_cases hfeed : c = '\n'
  · subst hfeed
    constructor
    · rw [crlfChars_lineFeed, gap_lineBreak rfl, gap_lineBreak rfl, gap_lineBreak rfl]
      exact h.rest_eq
    · rw [crlfChars_lineFeed, gap_lineBreak rfl, gap_lineBreak rfl, gap_lineBreak rfl]
      exact ⟨rfl, rfl, h.matches_gap.isUnclosed_eq⟩
  · constructor
    · rw [crlfChars_cons hfeed, gap_lineBreak hc, gap_lineBreak hc]
      exact h.rest_eq
    · rw [crlfChars_cons hfeed, gap_lineBreak hc, gap_lineBreak hc]
      exact h.matches_gap.cons rfl rfl

theorem blank (hc : isBlank c = true) (h : GapConverts cs) : GapConverts (c :: cs) := by
  have hfeed : c ≠ '\n' := by
    rintro rfl
    contradiction
  constructor
  · rw [crlfChars_cons hfeed, gap_blank hc, gap_blank hc]
    exact h.rest_eq
  · rw [crlfChars_cons hfeed, gap_blank hc, gap_blank hc]
    exact h.matches_gap.cons rfl rfl

/-- The carriage return behind a comment belongs to the comment. -/
theorem lineComment (hbody : '\n' ∉ body) (h : GapConverts cs) :
    GapConverts ('/' :: '/' :: (body ++ '\n' :: cs)) := by
  have hcrlf : crlfChars ('/' :: '/' :: (body ++ '\n' :: cs)) =
      '/' :: '/' :: ((body ++ ['\r']) ++ '\n' :: crlfChars cs) := by
    show '/' :: '/' :: crlfChars (body ++ '\n' :: cs) = _
    rw [crlfChars_append, crlfChars_eq_self hbody, List.append_assoc]
    rfl
  constructor
  · rw [hcrlf, gap_lineComment hbody, gap_lineComment (by simpa using hbody)]
    exact h.rest_eq
  · rw [hcrlf, gap_lineComment hbody, gap_lineComment (by simpa using hbody)]
    exact (h.matches_gap.cons rfl rfl).cons rfl rfl

theorem lastLine (hbody : '\n' ∉ body) : GapConverts ('/' :: '/' :: body) := by
  have hcrlf : crlfChars ('/' :: '/' :: body) = '/' :: '/' :: body :=
    crlfChars_eq_self (by simpa using hbody)
  constructor
  · rw [hcrlf, gap_lastLine hbody]
    rfl
  · rw [hcrlf]
    exact .refl _

theorem block (h : GapConverts (body.drop (blockExtent 1 0 body).length)) :
    GapConverts ('/' :: '*' :: body) := by
  have hcrlf : crlfChars ('/' :: '*' :: body) = '/' :: '*' :: crlfChars body := rfl
  constructor
  · rw [hcrlf, gap_block, gap_block, drop_blockExtent_crlf]
    exact h.rest_eq
  · rw [hcrlf, gap_block, gap_block, take_blockExtent_crlf, drop_blockExtent_crlf]
    refine h.matches_gap.cons ?_ ?_
    · exact any_isLineBreak_crlf ('/' :: '*' :: body.take _)
    · rw [isUnclosed, isUnclosed, (blockExtent_crlf body).closed_eq]

end GapConverts

/-- What is skipped in front of a token is skipped in front of it in the
conversion. -/
theorem gap_crlf (cs : List Char) : GapConverts cs := by
  induction hn : cs.length using Nat.strongRecOn generalizing cs with
  | ind n ih =>
    subst hn
    cases cs with
    | nil => exact .none rfl
    | cons c cs =>
      have hrest := ih cs.length (by simp) cs rfl
      by_cases hbreak : isLineBreak c = true
      · exact hrest.lineBreak hbreak
      by_cases hblank : isBlank c = true
      · exact hrest.blank hblank
      by_cases hline : ∃ body, c :: cs = '/' :: '/' :: body
      · obtain ⟨body, hbody⟩ := hline
        rw [hbody] at ih ⊢
        by_cases hfeed : '\n' ∈ body
        · obtain ⟨front, behind, rfl, hfront⟩ := List.eq_append_cons_of_mem hfeed
          apply GapConverts.lineComment hfront
          apply ih behind.length _ _ rfl
          simp only [List.length_cons, List.length_append]
          omega
        · exact .lastLine hfeed
      by_cases hblock : ∃ body, c :: cs = '/' :: '*' :: body
      · obtain ⟨body, hbody⟩ := hblock
        rw [hbody] at ih ⊢
        apply GapConverts.block
        apply ih _ _ _ rfl
        rw [List.length_drop, List.length_cons, List.length_cons]
        omega
      · apply GapConverts.none
        exact scan?_eq_none_of hbreak hblank hline hblock

end Trivia

end AnySome
