import AnySome.Proofs.LineEnds.Tokens
import AnySome.Proofs.Mirror.Chunks

/-!
# Moving in texts with other line ends

Two cursors are alike if one stands in a text and the other at the same token
of its conversion, with as many tokens to come. They have noted problems both or
neither: which problems, and where, is not compared, since a problem is noted
where the next token starts and not where the fault is.

A move depends on the kinds, gaps and words of the tokens on its way and on
nothing else, so it takes cursors that are alike to such cursors again, and it
notes problems in both texts or in neither.

## Main results

* `Cursor.Alike.written_since` — what is consumed is converted.
* `Cursor.Alike.skipBalanced`, `Cursor.Alike.skipUntil`, … — the moves.
-/

namespace AnySome

open Text

/-! ## Texts of tokens -/

namespace Token

variable {text : List Char}

theorem fullChars_crlf {ts us : List Token} (h : List.Forall₂ (Token.Alike text) ts us) :
    us.flatMap fullChars = crlfChars (ts.flatMap fullChars) := by
  induction h with
  | nil => rfl
  | cons htoken _ ih =>
    rw [List.flatMap_cons, List.flatMap_cons, crlfChars_append, htoken.fullChars_eq, ih]

theorem written_crlf {ts us : List Token} (h : List.Forall₂ (Token.Alike text) ts us) :
    written us = crlf (written ts) := by
  cases h with
  | nil => rfl
  | cons htoken hrest =>
    rw [written, written, htoken.text_eq, fullChars_crlf hrest, crlf_append, crlf_ofList]

namespace Alike

variable {t u : Token}

/-- A word is the same word in both texts. -/
theorem eq_word_iff (h : Token.Alike text t u) {word : String} (hword : '\n' ∉ word.toList) :
    u.text = word ↔ t.text = word := by
  rw [h.text_eq, crlf_eq_iff hword]

theorem beq_word (h : Token.Alike text t u) {word : String} (hword : '\n' ∉ word.toList) :
    (u.text == word) = (t.text == word) := by
  rw [Bool.eq_iff_iff, beq_iff_eq, beq_iff_eq, h.eq_word_iff hword]

theorem contains_word (h : Token.Alike text t u) {words : List String}
    (hwords : ∀ word ∈ words, '\n' ∉ word.toList) :
    words.contains u.text = words.contains t.text := by
  rw [Bool.eq_iff_iff, List.contains_iff_mem, List.contains_iff_mem]
  constructor
  · intro hmem
    rwa [(h.eq_word_iff (hwords _ hmem)).mp rfl]
  · intro hmem
    rwa [(h.eq_word_iff (hwords _ hmem)).mpr rfl]

theorem isWord_eq (h : Token.Alike text t u) {word : String} (hword : '\n' ∉ word.toList) :
    u.isWord word = t.isWord word := by
  rw [isWord, isWord, h.kind_eq, h.beq_word hword]

end Alike

end Token

namespace Cursor

/-! ## Cursors -/

/-- A cursor in `text` and the cursor at the same token of the conversion of
`text`. -/
structure Alike (text : List Char) (c d : Cursor) : Prop where
  pending : List.Forall₂ (Token.Alike text) c.pending d.pending
  final : Token.Alike text c.final d.final
  previousStop_eq : d.previousStop = crlfOffset text c.previousStop
  findings_iff : d.findings = [] ↔ c.findings = []

theorem findings_advance_of_terminated {c : Cursor}
    (h : (c.pending.tail.headD c.final).isUnterminated = false) :
    c.advance.findings = c.findings := by
  unfold advance
  split
  · rfl
  next t ts hcons =>
    rw [hcons, List.tail_cons] at h
    unfold checkTerminated
    rw [if_neg]
    show ¬(ts.headD c.final).isUnterminated = true
    rw [h]
    simp

theorem forall₂_headD {α β : Type} {R : α → β → Prop} {as : List α} {bs : List β} {a : α} {b : β}
    (h : List.Forall₂ R as bs) (hab : R a b) : R (as.headD a) (bs.headD b) := by
  cases h with
  | nil => exact hab
  | cons hhead _ => exact hhead

theorem forall₂_tail {α β : Type} {R : α → β → Prop} {as : List α} {bs : List β}
    (h : List.Forall₂ R as bs) : List.Forall₂ R as.tail bs.tail := by
  cases h with
  | nil => exact .nil
  | cons _ htail => exact htail

namespace Alike

variable {text : List Char} {c d : Cursor}

/-! ## The current token -/

theorem current (h : Alike text c d) : Token.Alike text c.current d.current :=
  forall₂_headD h.pending h.final

theorem kind_eq (h : Alike text c d) : d.kind = c.kind := by
  unfold Cursor.kind
  have hpending := h.pending
  cases hc : c.pending with
  | nil =>
    rw [hc, List.forall₂_nil_left_iff] at hpending
    rw [hpending]
  | cons t ts =>
    rw [hc, List.forall₂_cons_left_iff] at hpending
    obtain ⟨u, us, htoken, _, hus⟩ := hpending
    rw [hus]
    exact htoken.kind_eq

theorem remaining_eq (h : Alike text c d) : d.remaining = c.remaining := by
  rw [d.remaining_eq, c.remaining_eq, h.pending.length_eq]

theorem pending_eq_nil_iff (h : Alike text c d) : d.pending = [] ↔ c.pending = [] := by
  rw [← List.length_eq_zero_iff, ← List.length_eq_zero_iff, h.pending.length_eq]

theorem onNewLine_eq (h : Alike text c d) : d.current.onNewLine = c.current.onNewLine :=
  h.current.onNewLine_eq

theorem isSeparated_eq (h : Alike text c d) : d.current.isSeparated = c.current.isSeparated :=
  h.current.isSeparated_eq

/-- A name at the cursor stands in one line. -/
theorem inLine (h : Alike text c d) (hname : c.kind.isName = true) :
    '\n' ∉ c.current.text.toList := by
  apply h.current.inLine
  unfold Cursor.kind at hname
  unfold Cursor.current
  cases hp : c.pending with
  | nil =>
    rw [hp] at hname
    contradiction
  | cons t ts =>
    rw [hp] at hname
    exact hname

theorem name_eq (h : Alike text c d) (hname : c.kind.isName = true) :
    d.current.text = c.current.text := by
  rw [h.current.text_eq, crlf_eq_self (h.inLine hname)]

/-- What is consumed is converted. -/
theorem written_since {c' d' : Cursor} (h : Alike text c d) (h' : Alike text c' d') :
    d.writtenSince d' = crlf (c.writtenSince c') := by
  unfold writtenSince
  rw [h.remaining_eq, h'.remaining_eq]
  exact Token.written_crlf (List.forall₂_take _ h.pending)

/-! ## Steps -/

/-- Problems that are noted at once may be told apart and stand anywhere. -/
theorem report (h : Alike text c d) (start stop start' stop' : Nat) (fault fault' : Fault) :
    Alike text (c.report start stop fault) (d.report start' stop' fault') := by
  have hfound := findings_report_ne_nil start stop fault c
  have hfound' := findings_report_ne_nil start' stop' fault' d
  constructor
  case pending => simpa using h.pending
  case final => simpa using h.final
  case previousStop_eq => simpa using h.previousStop_eq
  case findings_iff => simp [hfound, hfound']

theorem reportHere (h : Alike text c d) (fault : Fault) :
    Alike text (c.reportHere fault) (d.reportHere fault) := h.report _ _ _ _ _ _

theorem reportDelimiter (h : Alike text c d) (start start' : Nat) (fault : Fault) :
    Alike text (c.reportDelimiter start fault) (d.reportDelimiter start' fault) :=
  h.report _ _ _ _ _ _

theorem advance (h : Alike text c d) : Alike text c.advance d.advance := by
  have htail := forall₂_tail h.pending
  have hnext := forall₂_headD htail h.final
  constructor
  case pending => simpa using htail
  case final => simpa using h.final
  case findings_iff =>
    rw [findings_advance_of_terminated hnext.terminated,
      findings_advance_of_terminated hnext.terminated']
    exact h.findings_iff
  case previousStop_eq =>
    have hpending := h.pending
    cases hc : c.pending with
    | nil =>
      rw [advance_of_pending_nil hc, advance_of_pending_nil (h.pending_eq_nil_iff.mpr hc)]
      exact h.previousStop_eq
    | cons t ts =>
      rw [hc, List.forall₂_cons_left_iff] at hpending
      obtain ⟨u, us, htoken, _, hus⟩ := hpending
      rw [previousStop_advance hc, previousStop_advance hus]
      exact htoken.stop_eq

/-- At the start of a text and of its conversion. -/
theorem start {s s' : TokenStream} (h : TokenStream.Alike text s s') :
    Alike text (Cursor.start s) (Cursor.start s') := by
  have hfirst := forall₂_headD h.pending h.final
  have hstart : ∀ {s : TokenStream}, (s.pending.headD s.final).isUnterminated = false →
      Cursor.start s =
        ⟨s.pending, s.pending.length, rfl, s.final, (s.pending.headD s.final).start, []⟩ := by
    intro s hs
    unfold Cursor.start checkTerminated
    rw [if_neg]
    show ¬(s.pending.headD s.final).isUnterminated = true
    rw [hs]
    simp
  rw [hstart hfirst.terminated, hstart hfirst.terminated']
  exact ⟨h.pending, h.final, hfirst.start_eq, Iff.rfl⟩

/-- Branches that are chosen alike. -/
theorem ite {P Q : Prop} [Decidable P] [Decidable Q] {c₁ c₂ d₁ d₂ : Cursor} (hiff : Q ↔ P)
    (h₁ : P → Alike text c₁ d₁) (h₂ : ¬P → Alike text c₂ d₂) :
    Alike text (if P then c₁ else c₂) (if Q then d₁ else d₂) := by
  by_cases hP : P
  · rw [if_pos hP, if_pos (hiff.mpr hP)]
    exact h₁ hP
  · rw [if_neg hP, if_neg (hiff.not.mpr hP)]
    exact h₂ hP

/-! ## Balanced units -/

theorem exists_cons (h : Alike text c d) {t : Token} {ts : List Token} (hc : c.pending = t :: ts) :
    ∃ u us, d.pending = u :: us ∧ Token.Alike text t u := by
  have hpending := h.pending
  rw [hc, List.forall₂_cons_left_iff] at hpending
  obtain ⟨u, us, htoken, _, hus⟩ := hpending
  exact ⟨u, us, hus, htoken⟩

theorem skipWithin {opened opened' : List (Bracket × Nat)} (h : Alike text c d)
    (hopened : opened'.map Prod.fst = opened.map Prod.fst) :
    Alike text (c.skipWithin opened) (d.skipWithin opened') := by
  fun_induction Cursor.skipWithin opened c generalizing opened' d with
  | case1 c hp =>
    rw [List.map_nil, List.map_eq_nil_iff] at hopened
    rw [hopened, skipWithin_of_nil (h.pending_eq_nil_iff.mpr hp)]
    exact h
  | case2 c hp bracket start outer =>
    rw [List.map_cons, List.map_eq_cons_iff] at hopened
    obtain ⟨⟨bracket', start'⟩, outer', rfl, rfl, _⟩ := hopened
    rw [skipWithin_of_nil (h.pending_eq_nil_iff.mpr hp)]
    exact h.reportDelimiter _ _ _
  | case3 opened c t ts hp found hnest =>
    obtain ⟨u, us, hd, htoken⟩ := h.exists_cons hp
    have hnest' := nesting_eq_of_not_consume htoken.kind_eq hopened (by simp [hnest])
    rw [skipWithin_of_stray hd (hnest'.trans hnest)]
    exact (h.reportHere _).advance
  | case4 opened c t ts hp expected found hnest =>
    obtain ⟨u, us, hd, htoken⟩ := h.exists_cons hp
    have hnest' := nesting_eq_of_not_consume htoken.kind_eq hopened (by simp [hnest])
    rw [skipWithin_of_mismatched hd (hnest'.trans hnest)]
    exact h.reportHere _
  | case5 opened c t ts hp inside hnest hempty =>
    obtain ⟨u, us, hd, htoken⟩ := h.exists_cons hp
    have hsame := nest_of_nesting hnest
    rw [← htoken.kind_eq, ← hopened] at hsame
    obtain ⟨inside', hnest', hinside⟩ := nesting_of_nest hsame
    rw [List.isEmpty_iff] at hempty
    rw [hempty, List.map_nil, List.map_eq_nil_iff] at hinside
    rw [skipWithin_of_nesting hd hnest', if_pos (List.isEmpty_iff.mpr hinside)]
    exact h.advance
  | case6 opened c t ts hp inside hnest hne ih =>
    obtain ⟨u, us, hd, htoken⟩ := h.exists_cons hp
    have hsame := nest_of_nesting hnest
    rw [← htoken.kind_eq, ← hopened] at hsame
    obtain ⟨inside', hnest', hinside⟩ := nesting_of_nest hsame
    have hne' : ¬inside'.isEmpty = true := by
      rw [List.isEmpty_iff] at hne ⊢
      rwa [← List.map_eq_nil_iff, hinside, List.map_eq_nil_iff]
    rw [skipWithin_of_nesting hd hnest', if_neg hne']
    exact ih h.advance hinside

theorem skipBalanced (h : Alike text c d) : Alike text c.skipBalanced d.skipBalanced :=
  h.skipWithin rfl

/-! ## Runs of units -/

theorem skipUntil {isOver : Cursor → Bool}
    (hover : ∀ {c d : Cursor}, Alike text c d → isOver d = isOver c) (h : Alike text c d) :
    Alike text (c.skipUntil isOver) (d.skipUntil isOver) := by
  fun_induction Cursor.skipUntil isOver c generalizing d with
  | case1 c hp =>
    rw [Cursor.skipUntil, dif_pos (h.pending_eq_nil_iff.mpr hp)]
    exact h
  | case2 c hp hstop =>
    rw [Cursor.skipUntil, dif_neg (h.pending_eq_nil_iff.not.mpr hp), hover h, if_pos hstop]
    exact h
  | case3 c hp hgo ih =>
    rw [Cursor.skipUntil.eq_def isOver d, dif_neg (h.pending_eq_nil_iff.not.mpr hp), hover h, if_neg hgo]
    exact ih h.skipBalanced

theorem atStatementEnd_eq (h : Alike text c d) : atStatementEnd d = atStatementEnd c := by
  unfold atStatementEnd
  rw [h.kind_eq, h.onNewLine_eq]

theorem skipStatement (h : Alike text c d) : Alike text c.skipStatement d.skipStatement := by
  have hkind := h.kind_eq
  unfold Cursor.skipStatement
  cases hk : c.kind with
  | closing found =>
    rw [hkind.trans hk]
    exact (h.reportHere _).advance
  | endOfFile =>
    rw [hkind.trans hk]
    exact h
  | _ =>
    rw [hkind.trans hk]
    exact h.skipBalanced.skipUntil atStatementEnd_eq

theorem skipExpression (oneLine : Bool) (h : Alike text c d) :
    Alike text (c.skipExpression oneLine) (d.skipExpression oneLine) := by
  unfold Cursor.skipExpression
  apply ite (by rw [h.kind_eq])
  · exact fun _ => h.reportHere _
  · intro _
    refine h.skipBalanced.skipUntil fun h' => ?_
    rw [h'.kind_eq, h'.onNewLine_eq]

theorem skipAdjacentParen (h : Alike text c d) :
    Alike text c.skipAdjacentParen d.skipAdjacentParen := by
  unfold Cursor.skipAdjacentParen
  apply ite (by rw [h.kind_eq, h.isSeparated_eq])
  · exact fun _ => h.skipBalanced
  · exact fun _ => h

theorem skipAttribute (h : Alike text c d) : Alike text c.skipAttribute d.skipAttribute := by
  unfold Cursor.skipAttribute
  apply ite (by rw [h.advance.kind_eq])
  · exact fun _ => h.advance.advance.skipAdjacentParen
  · exact fun _ => h.advance.reportHere _

/-! ## Clauses -/

theorem skipGenericWithin {start start' depth : Nat} (h : Alike text c d) :
    Alike text (c.skipGenericWithin start depth) (d.skipGenericWithin start' depth) := by
  induction hn : c.pending.length using Nat.strongRecOn generalizing c d depth with
  | ind n ih =>
    subst hn
    have hkind := h.kind_eq
    rw [Cursor.skipGenericWithin.eq_def start, Cursor.skipGenericWithin.eq_def start']
    by_cases hp : c.pending = []
    · rw [dif_pos hp, dif_pos (h.pending_eq_nil_iff.mpr hp)]
      exact h.reportDelimiter _ _ _
    rw [dif_neg hp, dif_neg (h.pending_eq_nil_iff.not.mpr hp)]
    have hpos := List.length_pos_iff.mpr hp
    have hadvance : c.advance.pending.length < c.pending.length := by
      rw [length_advance]
      omega
    cases hk : c.kind with
    | lessThan =>
      rw [hkind.trans hk]
      exact ih _ hadvance h.advance rfl
    | greaterThan =>
      rw [hkind.trans hk]
      apply ite Iff.rfl
      · exact fun _ => h.advance
      · exact fun _ => ih _ hadvance h.advance rfl
    | semicolon =>
      rw [hkind.trans hk]
      exact h.reportDelimiter _ _ _
    | opening bracket =>
      rw [hkind.trans hk]
      cases bracket with
      | brace => exact h.reportDelimiter _ _ _
      | _ => exact ih _ (length_skipBalanced_lt hpos) h.skipBalanced rfl
    | closing bracket =>
      rw [hkind.trans hk]
      cases bracket with
      | brace => exact h.reportDelimiter _ _ _
      | _ => exact ih _ (length_skipBalanced_lt hpos) h.skipBalanced rfl
    | _ =>
      rw [hkind.trans hk]
      exact ih _ (length_skipBalanced_lt hpos) h.skipBalanced rfl

theorem skipGenericClause (h : Alike text c d) :
    Alike text c.skipGenericClause d.skipGenericClause := h.skipGenericWithin

theorem skipRequirements (afterComma : Bool) (h : Alike text c d) :
    Alike text (c.skipRequirements afterComma) (d.skipRequirements afterComma) := by
  fun_induction Cursor.skipRequirements afterComma c generalizing d with
  | case1 afterComma c hp =>
    rw [Cursor.skipRequirements, dif_pos (h.pending_eq_nil_iff.mpr hp)]
    exact h
  | case2 afterComma c hp hstop =>
    rw [Cursor.skipRequirements, dif_neg (h.pending_eq_nil_iff.not.mpr hp), h.kind_eq,
      h.onNewLine_eq, if_pos hstop]
    exact h
  | case3 afterComma c hp hgo ih =>
    rw [Cursor.skipRequirements.eq_def _ d, dif_neg (h.pending_eq_nil_iff.not.mpr hp), h.kind_eq,
      h.onNewLine_eq, if_neg hgo]
    exact ih h.skipBalanced

theorem skipWhereClause (h : Alike text c d) : Alike text c.skipWhereClause d.skipWhereClause :=
  h.advance.skipRequirements true

end Alike

end Cursor

end AnySome
