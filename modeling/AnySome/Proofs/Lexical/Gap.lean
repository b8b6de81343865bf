import AnySome.Proofs.Lexical.Reads

/-!
# What a gap looks like

The characters between two tokens are whitespace, line comments up to the ends
of their lines, and block comments with block comments in them. The last gap of
a text may also end in a line comment without a line end, or inside a block
comment. `Gap` says so about the characters alone, without the pieces that
reading finds and without counting how many comments are open.

## Main results

* `Comment.blockExtent_cases` — where a block comment ends.
* `Trivia.gap_spec` — what is skipped in front of a token is a gap.
-/

namespace AnySome

/-! ## Block comments -/

namespace Comment

/-- A block comment begins or ends here. -/
def marks : List Char → Bool
  | '/' :: '*' :: _ => true
  | '*' :: '/' :: _ => true
  | _ => false

/-- What stands between the two marks of a block comment. Behind it stands the
star of the closing mark, which may not make a mark with its last character. -/
inductive Inside : List Char → Prop where
  | nil : Inside []
  | char {c : Char} {cs : List Char} (hc : marks (c :: cs ++ ['*']) = false) (h : Inside cs) :
      Inside (c :: cs)
  | nested {body cs : List Char} (hbody : Inside body) (h : Inside cs) :
      Inside ('/' :: '*' :: (body ++ '*' :: '/' :: cs))

/-- What stands behind the first mark of a block comment up to the end of a
text that does not close it. -/
inductive Unclosed : List Char → Prop where
  | nil : Unclosed []
  | char {c : Char} {cs : List Char} (hc : marks (c :: cs) = false) (h : Unclosed cs) :
      Unclosed (c :: cs)
  | nested {body cs : List Char} (hbody : Inside body) (h : Unclosed cs) :
      Unclosed ('/' :: '*' :: (body ++ '*' :: '/' :: cs))
  | opens {cs : List Char} (h : Unclosed cs) : Unclosed ('/' :: '*' :: cs)

theorem marks_eq_true_iff {cs : List Char} :
    marks cs = true ↔ (∃ ds, cs = '/' :: '*' :: ds) ∨ ∃ ds, cs = '*' :: '/' :: ds := by
  unfold marks
  split
  · simp
  · simp
  next hopen hclose =>
    simp only [Bool.false_eq_true, false_iff, not_or, not_exists]
    exact ⟨hopen, hclose⟩

/-- A mark is made by two characters. -/
theorem marks_congr {c : Char} {Y Z : List Char} (h : Y.head? = Z.head?) :
    marks (c :: Y) = marks (c :: Z) := by
  cases Y with
  | nil =>
    cases Z with
    | nil => rfl
    | cons z Z => simp at h
  | cons y Y =>
    cases Z with
    | nil => simp at h
    | cons z Z =>
      rw [List.head?_cons, List.head?_cons, Option.some.injEq] at h
      subst h
      rw [Bool.eq_iff_iff, marks_eq_true_iff, marks_eq_true_iff]
      simp

open Trivia

/-- Any other character is passed. -/
theorem blockExtent_char {depth seen : Nat} {c : Char} {cs : List Char}
    (h : marks (c :: cs) = false) :
    blockExtent (depth + 1) seen (c :: cs) = blockExtent (depth + 1) (seen + 1) cs := by
  rw [blockExtent]
  · rintro ds rfl rfl
    contradiction
  · rintro ds rfl rfl
    contradiction

/-- Each comment that is open is closed, or is still open at the end. -/
theorem blockExtent_cases (depth seen : Nat) (cs : List Char) :
    (∃ body rest, cs = body ++ '*' :: '/' :: rest ∧ Inside body ∧
      blockExtent (depth + 1) seen cs = blockExtent depth (seen + body.length + 2) rest) ∨
    Unclosed cs ∧ blockExtent (depth + 1) seen cs = ⟨seen + cs.length, false⟩ := by
  -- A comment inside is followed by the rest of the one around it, which is no
  -- direct tail of the characters: so the induction is on their number.
  induction hn : cs.length using Nat.strongRecOn generalizing depth seen cs with
  | ind n ih =>
    subst hn
    match cs, ih with
    | [], _ => exact .inr ⟨.nil, rfl⟩
    | c :: cs, ih =>
      by_cases hmark : marks (c :: cs) = true
      · rcases marks_eq_true_iff.mp hmark with ⟨ds, hds⟩ | ⟨ds, hds⟩
        · rw [hds] at ih ⊢
          have hopen : blockExtent (depth + 1) seen ('/' :: '*' :: ds) =
              blockExtent (depth + 2) (seen + 2) ds := rfl
          rw [hopen]
          rcases ih ds.length (by simp only [List.length_cons]; omega) (depth + 1) (seen + 2) ds rfl
            with ⟨body, rest, rfl, hbody, hextent⟩ | ⟨hunclosed, hextent⟩
          · rw [hextent]
            rcases ih rest.length (by simp only [List.length_cons, List.length_append]; omega)
              depth (seen + 2 + body.length + 2) rest rfl
              with ⟨outer, last, rfl, houter, hrest⟩ | ⟨hunclosed, hrest⟩
            · refine .inl ⟨'/' :: '*' :: (body ++ '*' :: '/' :: outer), last, by simp,
                .nested hbody houter, ?_⟩
              rw [hrest]
              congr 1
              simp only [List.length_cons, List.length_append]
              omega
            · refine .inr ⟨.nested hbody hunclosed, ?_⟩
              rw [hrest]
              congr 1
              simp only [List.length_cons, List.length_append]
              omega
          · refine .inr ⟨.opens hunclosed, ?_⟩
            rw [hextent]
            congr 1
            simp only [List.length_cons]
            omega
        · exact .inl ⟨[], ds, hds, .nil, by rw [hds]; rfl⟩
      · rw [Bool.not_eq_true] at hmark
        rw [blockExtent_char hmark]
        rcases ih cs.length (by simp) depth (seen + 1) cs rfl
          with ⟨body, rest, rfl, hbody, hextent⟩ | ⟨hunclosed, hextent⟩
        · refine .inl ⟨c :: body, rest, rfl, .char ?_ hbody, ?_⟩
          · rw [← hmark]
            apply marks_congr
            cases body <;> rfl
          · rw [hextent]
            congr 1
            simp only [List.length_cons]
            omega
        · refine .inr ⟨.char hmark hunclosed, ?_⟩
          rw [hextent]
          congr 1
          simp only [List.length_cons]
          omega

end Comment

/-! ## Pieces -/

namespace Trivia

theorem scan?_of_isLineBreak {c : Char} (h : isLineBreak c = true) (cs : List Char) :
    scan? (c :: cs) = some (.lineBreak c) := by
  simp [scan?, h]

theorem scan?_of_isBlank {c : Char} (h : isBlank c = true) (cs : List Char) :
    scan? (c :: cs) = some (.blank c) := by
  have hbreak : isLineBreak c = false := by
    rcases isBlank_iff.mp h with rfl | rfl | rfl | rfl <;> rfl
  simp [scan?, hbreak, h]

/-- No gap begins at a character that is not part of one, nor at a slash that
begins no comment. -/
theorem scan?_eq_none_iff {c : Char} {cs : List Char} : scan? (c :: cs) = none ↔
    isLineBreak c = false ∧ isBlank c = false ∧
      (c = '/' → cs.head? ≠ some '/' ∧ cs.head? ≠ some '*') := by
  by_cases hbreak : isLineBreak c = true
  · simp [scan?_of_isLineBreak hbreak, hbreak]
  by_cases hblank : isBlank c = true
  · simp [scan?_of_isBlank hblank, hblank]
  by_cases hslash : c = '/'
  · subst hslash
    cases cs with
    | nil => simp [scan?, hbreak, hblank]
    | cons d cs =>
      by_cases hline : d = '/'
      · simp [hline, scan?, hbreak, hblank]
      by_cases hblock : d = '*'
      · simp [hblock, scan?, hbreak, hblank]
      · simp [hline, hblock, scan?, hbreak, hblank]
  · simp [scan?, hbreak, hblank, hslash]

theorem scan?_eq_none_of {c : Char} {cs : List Char} (hbreak : ¬isLineBreak c = true)
    (hblank : ¬isBlank c = true) (hline : ¬∃ body, c :: cs = '/' :: '/' :: body)
    (hblock : ¬∃ body, c :: cs = '/' :: '*' :: body) : scan? (c :: cs) = none := by
  rw [scan?_eq_none_iff, ← Bool.not_eq_true, ← Bool.not_eq_true]
  refine ⟨hbreak, hblank, ?_⟩
  rintro rfl
  constructor
  · intro h
    obtain ⟨body, hbody⟩ := List.head?_eq_some_iff.mp h
    exact hline ⟨body, by rw [hbody]⟩
  · intro h
    obtain ⟨body, hbody⟩ := List.head?_eq_some_iff.mp h
    exact hblock ⟨body, by rw [hbody]⟩

end Trivia

/-! ## Gaps -/

/-- What stands behind a gap. -/
inductive GapEnd where
  /-- A token. -/
  | token
  /-- The end of the text. -/
  | text
  /-- The end of the text, inside a block comment. -/
  | comment
deriving DecidableEq, Repr

/-- The characters that separate tokens by themselves. -/
def spaces : List Char := [' ', '\t', '\n', '\x0b', '\x0c', '\r']

/-- The characters of a gap with this ending behind it. -/
inductive Gap : GapEnd → List Char → Prop where
  | token : Gap .token []
  | text : Gap .text []
  | space {e : GapEnd} {c : Char} {cs : List Char} (hc : c ∈ spaces) (h : Gap e cs) :
      Gap e (c :: cs)
  | line {e : GapEnd} {body cs : List Char} (hbody : '\n' ∉ body) (h : Gap e ('\n' :: cs)) :
      Gap e ('/' :: '/' :: (body ++ '\n' :: cs))
  | block {e : GapEnd} {body cs : List Char} (hbody : Comment.Inside body) (h : Gap e cs) :
      Gap e ('/' :: '*' :: (body ++ '*' :: '/' :: cs))
  | lastLine {body : List Char} (hbody : '\n' ∉ body) : Gap .text ('/' :: '/' :: body)
  | unclosed {body : List Char} (hbody : Comment.Unclosed body) :
      Gap .comment ('/' :: '*' :: body)

namespace Trivia

/-- A piece is a space, or a comment of one of three forms. -/
theorem scan?_cases {cs : List Char} {t : Trivia} (h : scan? cs = some t) :
    (∃ c ∈ spaces, t.chars = [c] ∧ t.isUnclosed = false) ∨
      (∃ body, '\n' ∉ body ∧ t = .lineComment ('/' :: '/' :: body)) ∨
      (∃ body, Comment.Inside body ∧
        t = .blockComment ('/' :: '*' :: (body ++ ['*', '/'])) true) ∨
      ∃ body, Comment.Unclosed body ∧ t = .blockComment ('/' :: '*' :: body) false ∧
        cs = t.chars := by
  unfold scan? at h
  split at h
  · contradiction
  next c ds =>
    split at h
    next hbreak =>
      cases h
      refine .inl ⟨c, ?_, rfl, rfl⟩
      rcases isLineBreak_iff.mp hbreak with rfl | rfl <;> decide
    split at h
    next hblank =>
      cases h
      refine .inl ⟨c, ?_, rfl, rfl⟩
      rcases isBlank_iff.mp hblank with rfl | rfl | rfl | rfl <;> decide
    split at h
    next hslash =>
      subst hslash
      split at h
      next body =>
        cases h
        refine .inr (.inl ⟨_, ?_, rfl⟩)
        intro hmem
        simpa using List.mem_takeWhile_imp hmem
      next body =>
        cases h
        refine .inr (.inr ?_)
        rcases Comment.blockExtent_cases 0 0 body
          with ⟨inner, rest, rfl, hinner, hextent⟩ | ⟨hunclosed, hextent⟩
        · refine .inl ⟨inner, hinner, ?_⟩
          rw [hextent, blockExtent]
          simp [List.take_append, List.take_of_length_le]
        · refine .inr ⟨body, hunclosed, ?_⟩
          rw [hextent]
          simp [chars]
      · contradiction
    · contradiction

/-- What stands behind these pieces if the characters `rest` follow them. -/
def ending (g : List Trivia) (rest : List Char) : GapEnd :=
  if rest ≠ [] then .token else if g.any isUnclosed then .comment else .text

theorem ending_cons_closed {t : Trivia} (h : t.isUnclosed = false) (g : List Trivia)
    (rest : List Char) : ending (t :: g) rest = ending g rest := by
  simp [ending, h]

/-- Every piece of a gap has characters. -/
theorem gap_eq_nil_iff (cs : List Char) :
    (gap cs).1 = [] ↔ (gap cs).1.flatMap chars = [] := by
  cases hscan : scan? cs with
  | none => simp [gap_of_none hscan]
  | some t =>
    have hpos := length_pos hscan
    have hgap := gap_of_some (by rwa [chars_append_drop hscan] :
      scan? (t.chars ++ cs.drop t.chars.length) = some t)
    rw [chars_append_drop hscan] at hgap
    rw [hgap]
    simp [List.ne_nil_of_length_pos hpos]

/-- What is skipped in front of a token, or of the end of the text, is a gap. -/
theorem gap_spec (cs : List Char) :
    Gap (ending (gap cs).1 (gap cs).2) ((gap cs).1.flatMap chars) := by
  fun_induction gap cs with
  | case1 cs h =>
    by_cases hnil : cs = []
    · rw [show ending [] cs = .text by simp [ending, hnil]]
      exact .text
    · rw [show ending [] cs = .token by simp [ending, hnil]]
      exact .token
  | case2 cs t h ts rest heq ih =>
    rw [heq] at ih
    dsimp only at ih ⊢
    rw [List.flatMap_cons]
    rcases scan?_cases h with ⟨c, hc, hchars, hclosed⟩ | ⟨body, hbody, rfl⟩ |
      ⟨body, hbody, rfl⟩ | ⟨body, hbody, rfl, hcs⟩
    · rw [hchars, ending_cons_closed hclosed]
      exact .space hc ih
    · rw [ending_cons_closed rfl]
      rcases drop_lineComment h with hnil | ⟨Z, hZ⟩
      · rw [show (lineComment ('/' :: '/' :: body)).chars.length =
          ('/' :: '/' :: body).length from rfl, hnil, gap_of_none rfl] at heq
        cases heq
        rw [List.flatMap_nil, List.append_nil]
        exact .lastLine hbody
      · -- the end of the line is the next piece
        have hbreak : scan? ((lineBreak '\n').chars ++ Z) = some (.lineBreak '\n') := rfl
        have hgap : gap ('\n' :: Z) = _ := gap_of_some hbreak
        rw [show (lineComment ('/' :: '/' :: body)).chars.length =
          ('/' :: '/' :: body).length from rfl, hZ, hgap] at heq
        cases heq
        exact .line hbody ih
    · rw [ending_cons_closed rfl]
      have hnext := Gap.block hbody ih
      simpa [chars] using hnext
    · rw [hcs, List.drop_length, gap_of_none rfl] at heq
      cases heq
      rw [List.flatMap_nil, List.append_nil]
      exact .unclosed hbody

end Trivia

end AnySome
