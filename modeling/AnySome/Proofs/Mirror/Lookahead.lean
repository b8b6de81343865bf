import AnySome.Proofs.Mirror.Chunks

/-!
# Looking ahead in a revised text

A declaration is recognised by running over attributes and modifiers and
going back. Such a run may pass over brackets with types inside, and it may
note problems, which are forgotten. It gives the same answer at twins: it
looks at kinds, words and gaps of tokens that announce no type, and passes
over the same units.

## Main results

* `Twins.isAtDeclaration_eq` — twins stand at a declaration together.
* `Twins.accessorOf_eq` — twins stand at the same kind of accessor block.
-/

namespace AnySome

open Cursor AnySome.Parser Declaration

/-! ## Twins on the way -/

/-- The cursors are twins behind some of the chunks. -/
def Abreast (w : Revision) (fin : Sign) (K : List Chunk) (c d : Cursor) : Prop :=
  ∃ K₁ K₂, K = K₁ ++ K₂ ∧ Twins w fin K₂ c d

namespace Twins

variable {w : Revision} {fin : Sign} {K : List Chunk} {c d : Cursor}

theorem abreast (h : Twins w fin K c d) : Abreast w fin K c d := ⟨[], K, rfl, h⟩

theorem abreast_advance (h : Twins w fin K c d) (hk : isGuard c.kind = false) :
    Abreast w fin K c.advance d.advance := by
  cases K with
  | nil =>
    have hc : c.pending = [] := h.old
    have hd : d.pending = [] := by simpa using h.new
    rw [advance_of_pending_nil hc, advance_of_pending_nil hd]
    exact h.abreast
  | cons k K =>
    cases k with
    | kept t => exact ⟨[.kept t], K, rfl, h.advance⟩
    | typed s => exact absurd rfl (h.not_typed hk s K)

theorem abreast_skipBalanced (h : Twins w fin K c d) (hk : isGuard c.kind = false) :
    Abreast w fin K c.skipBalanced d.skipBalanced :=
  h.skipBalanced hk

theorem moved_iff {K₁ K₂ : List Chunk} {c' d' : Cursor} (h : Twins w fin (K₁ ++ K₂) c d)
    (h' : Twins w fin K₂ c' d') : c'.remaining < c.remaining ↔ K₁ ≠ [] := by
  rw [c'.remaining_eq, c.remaining_eq, h.old, h'.old]
  constructor
  · rintro hlt rfl
    exact Nat.lt_irrefl _ hlt
  · exact Revision.length_tokens_lt

theorem moved_iff_new {K₁ K₂ : List Chunk} {c' d' : Cursor} (h : Twins w fin (K₁ ++ K₂) c d)
    (h' : Twins w fin K₂ c' d') : d'.remaining < d.remaining ↔ K₁ ≠ [] := by
  have hd := congrArg List.length h.new
  have hd' := congrArg List.length h'.new
  rw [List.length_map] at hd hd'
  rw [d'.remaining_eq, d.remaining_eq, hd, hd']
  constructor
  · rintro hlt rfl
    exact Nat.lt_irrefl _ hlt
  · exact Revision.length_news_lt

/-- A run moves in the revised text if it moves in the text. -/
theorem moved_together {K₁ K₂ : List Chunk} {c' d' : Cursor} (h : Twins w fin (K₁ ++ K₂) c d)
    (h' : Twins w fin K₂ c' d') : d'.remaining < d.remaining ↔ c'.remaining < c.remaining :=
  (h.moved_iff_new h').trans (h.moved_iff h').symm

end Twins

namespace Abreast

variable {w : Revision} {fin : Sign} {K : List Chunk} {c d c' d' : Cursor}

theorem trans (h : Abreast w fin K c d)
    (hnext : ∀ {L}, Twins w fin L c d → Abreast w fin L c' d') : Abreast w fin K c' d' := by
  obtain ⟨K₁, K₂, rfl, htwins⟩ := h
  obtain ⟨L₁, L₂, rfl, htwins'⟩ := hnext htwins
  exact ⟨K₁ ++ L₁, L₂, by simp, htwins'⟩

end Abreast

namespace Twins

variable {w : Revision} {fin : Sign} {K : List Chunk} {c d : Cursor}

theorem abreast_skipAdjacentParen (h : Twins w fin K c d) :
    Abreast w fin K c.skipAdjacentParen d.skipAdjacentParen := by
  unfold Cursor.skipAdjacentParen
  rw [h.kind_eq, h.isSeparated_eq]
  split
  next hopen =>
    have hk : c.kind = .opening .paren := by
      simp only [Bool.and_eq_true, beq_iff_eq] at hopen
      exact hopen.1
    exact h.abreast_skipBalanced (by rw [hk]; rfl)
  · exact h.abreast

theorem isGuard_of_isName {k : Kind} (h : k.isName = true) : isGuard k = false := by
  cases k <;> first | rfl | contradiction

theorem abreast_skipAttribute (h : Twins w fin K c d) (hk : c.kind = .atSign) :
    Abreast w fin K c.skipAttribute d.skipAttribute := by
  unfold Cursor.skipAttribute
  refine (h.abreast_advance (by rw [hk]; rfl)).trans fun hname => ?_
  dsimp only
  rw [hname.kind_eq]
  split
  next hisName =>
    exact (hname.abreast_advance (isGuard_of_isName hisName)).trans
      fun hbehind => hbehind.abreast_skipAdjacentParen
  · exact (hname.report _ _ _ _ _ _).abreast

/-! ## Attributes and modifiers -/

/-- A round that gives the same result at twins gives the same list. -/
theorem many_eq {item : Parser (Option α)}
    (hitem : ∀ {K c d}, Twins w fin K c d →
      (item d).1 = (item c).1 ∧ Abreast w fin K (item c).2 (item d).2)
    (h : Twins w fin K c d) :
    (many item d).1 = (many item c).1 ∧ Abreast w fin K (many item c).2 (many item d).2 := by
  induction hn : K.length using Nat.strongRecOn generalizing K c d with
  | _ n ih =>
    obtain ⟨hresult, K₁, K₂, rfl, hnext⟩ := hitem h
    cases hc : item c with
    | mk a c' =>
      cases hd : item d with
      | mk b d' =>
        rw [hc, hd] at hnext hresult
        dsimp only at hnext hresult
        subst hresult
        cases b with
        | none =>
          rw [many_of_none hc, many_of_none hd]
          exact ⟨rfl, K₁, K₂, rfl, hnext⟩
        | some a =>
          by_cases hK : K₁ = []
          · have hstay : ¬c'.remaining < c.remaining :=
              fun hlt => (h.moved_iff hnext).mp hlt hK
            have hstay' : ¬d'.remaining < d.remaining :=
              fun hlt => (h.moved_iff_new hnext).mp hlt hK
            rw [many_of_stuck hc hstay, many_of_stuck hd hstay']
            exact ⟨rfl, K₁, K₂, rfl, hnext⟩
          · rw [many_of_some hc ((h.moved_iff hnext).mpr hK),
              many_of_some hd ((h.moved_iff_new hnext).mpr hK)]
            have hlt : K₂.length < n := by
              have hpos := List.length_pos_iff.mpr hK
              rw [← hn, List.length_append]
              omega
            obtain ⟨hrest, L₁, L₂, rfl, hlater⟩ := ih _ hlt hnext rfl
            refine ⟨by dsimp only; rw [hrest], K₁ ++ L₁, L₂, by simp, hlater⟩

theorem isModified_eq (h : Twins w fin K c d) : isModified d = isModified c := by
  unfold isModified
  rw [h.kind_eq]

theorem isModifiedByClass_eq (h : Twins w fin K c d) :
    isModifiedByClass d = isModifiedByClass c := by
  unfold isModifiedByClass
  rw [h.kind_eq, h.text_eq]

theorem isAtModifier_eq (h : Twins w fin K c d) : isAtModifier d = isAtModifier c := by
  unfold isAtModifier
  rw [h.kind_eq, h.text_eq]
  split
  · rfl
  next hk =>
    obtain ⟨K₁, K₂, rfl, hnext⟩ := h.abreast_advance (by rw [hk]; rfl)
    exact hnext.isModifiedByClass_eq
  next hk =>
    obtain ⟨K₁, K₂, rfl, hnext⟩ := (h.abreast_advance (by rw [hk]; rfl)).trans
      fun hword => hword.abreast_skipAdjacentParen
    rw [hnext.isModified_eq]
  · rfl

theorem attribute?_eq (h : Twins w fin K c d) :
    (attribute? d).1 = (attribute? c).1 ∧
      Abreast w fin K (attribute? c).2 (attribute? d).2 := by
  simp only [attribute?, bind_isAt, run_ite, h.kind_eq, beq_iff_eq]
  split
  next hk => exact ⟨rfl, h.abreast_skipAttribute hk⟩
  · exact ⟨rfl, h.abreast⟩

theorem isGuard_of_isAtModifier (h : isAtModifier c = true) : isGuard c.kind = false := by
  unfold isAtModifier at h
  split at h
  next hk => rw [hk]; rfl
  next hk => rw [hk]; rfl
  next hk => rw [hk]; rfl
  · contradiction

theorem modifier_eq (h : Twins w fin K c d) :
    (modifier d).1 = (modifier c).1 ∧ Abreast w fin K (modifier c).2 (modifier d).2 := by
  simp only [modifier, bind_isAt, bind_get, run_ite, h.kind_eq, h.isAtModifier_eq, beq_iff_eq]
  split
  next hk => exact ⟨rfl, h.abreast_skipAttribute hk⟩
  split
  next hmodifier =>
    exact ⟨rfl, (h.abreast_advance (isGuard_of_isAtModifier hmodifier)).trans
      fun hword => hword.abreast_skipAdjacentParen⟩
  · exact ⟨rfl, h.abreast⟩

theorem abreast_modifiers (h : Twins w fin K c d) :
    Abreast w fin K (modifiers c).2 (modifiers d).2 :=
  (h.many_eq modifier_eq).2

theorem abreast_attributes (h : Twins w fin K c d) :
    Abreast w fin K (attributes c).2 (attributes d).2 :=
  (h.many_eq attribute?_eq).2

/-! ## What starts here -/

theorem isAtActor_eq (h : Twins w fin K c d) : isAtActor d = isAtActor c := by
  unfold isAtActor
  rw [h.kind_eq, h.text_eq]
  by_cases hk : c.kind = .identifier
  · obtain ⟨K₁, K₂, rfl, hnext⟩ := h.abreast_advance (by rw [hk]; rfl)
    dsimp only
    rw [hnext.kind_eq, hnext.onNewLine_eq]
  · have hnot : (c.kind == Kind.identifier) = false := beq_false_of_ne hk
    rw [hnot]
    rfl

/-- Twins stand at a declaration together. -/
theorem isAtDeclaration_eq (h : Twins w fin K c d) : isAtDeclaration d = isAtDeclaration c := by
  obtain ⟨K₁, K₂, rfl, hnext⟩ := h.abreast_modifiers
  unfold isAtDeclaration
  dsimp only
  rw [hnext.kind_eq, hnext.isAtActor_eq]

/-- Twins stand at the same kind of accessor block. -/
theorem accessorOf_eq (h : Twins w fin K c d) (hk : c.kind = .opening .brace) :
    accessorOf d = accessorOf c := by
  obtain ⟨K₁, K₂, rfl, hfirst⟩ := (h.abreast_advance (by rw [hk]; rfl)).trans
    fun hinside => hinside.abreast_attributes
  unfold accessorOf
  dsimp only
  rw [hfirst.kind_eq, hfirst.text_eq]

theorem endsOperatorName_eq (h : Twins w fin K c d) :
    endsOperatorName d = endsOperatorName c := by
  unfold endsOperatorName
  rw [h.kind_eq, h.isSeparated_eq, h.onNewLine_eq]

end Twins

end AnySome
