import AnySome.Proofs.Control.Realizes

/-!
# Scripts that pass over text

The loops that pass over text are functions on cursors, and end because each
unit takes a token. Their scripts take the reader to the same cursor.

## Main results

* `Script.Realizes.skipBalanced` — a unit.
* `Script.Realizes.skipUntil`, `Script.Realizes.skipGenerics`,
  `Script.Realizes.skipWhere`, … — runs of units and clauses.
-/

namespace AnySome.Script.Realizes

open AnySome.Cursor AnySome.Parser AnySome.Declaration

variable {d : Depths} {C : Kind → Prop}

/-! ## Moves -/

/-- Two moves one after the other. -/
theorem move_comp {P Q : Script Unit} {f g : Cursor → Cursor} (hP : Realizes d C P (move f))
    (hQ : Realizes d anywhere Q (move g)) :
    Realizes d C (P >>= fun _ => Q) (move fun c => g (f c)) :=
  hP.bind fun _ => hQ

/-- A move that is made only if the answer to a question is yes. -/
theorem move_if {P : Script Unit} {f : Cursor → Cursor} {asks : Cursor → Bool}
    (hP : ∀ c : Cursor, asks c = true → c.Plain → Takes d P c () (f c)) :
    Realizes d C (.look asks >>= fun b => if b then P else Pure.pure ())
      (move fun c => if asks c then f c else c) := by
  intro c hc _
  cases hasks : asks c with
  | true =>
    refine .bind_look_of hasks ?_
    show Takes d P c () (if asks c = true then f c else c)
    rw [if_pos hasks]
    exact hP c hasks hc
  | false =>
    refine .bind_look_of hasks ?_
    show Takes d (Pure.pure ()) c () (if asks c = true then f c else c)
    rw [if_neg (by rw [hasks]; exact Bool.false_ne_true)]
    exact .pure () c

/-! ## Units -/

theorem skipWithin (opened : List (Bracket × Nat)) :
    Realizes d C (Script.skipWithin opened) (move (Cursor.skipWithin opened)) := by
  apply at_any
  intro c hc _
  show Takes d (Script.skipWithin opened) c () (c.skipWithin opened)
  unfold Script.skipWithin
  have hkind : ∀ {c : Cursor} {t : Token} {ts : List Token}, c.Plain → c.pending = t :: ts →
      (c.kind == .endOfFile) = false ∧ c.current = t ∧ c.pending ≠ [] := by
    intro c t ts hc hp
    refine ⟨?_, current_of_cons hp, by simp [hp]⟩
    rw [kind_of_cons hp]
    exact beq_false_of_ne (hc.kinds t (by simp [hp]))
  fun_induction Cursor.skipWithin opened c with
  | case1 c hnil =>
    refine .done (.bind_look_of (beq_iff_eq.mpr (kind_of_pending_nil hnil)) ?_)
    exact .pure _ c
  | case2 c hnil bracket start outer =>
    refine .done (.bind_look_of (beq_iff_eq.mpr (kind_of_pending_nil hnil)) ?_)
    exact (Takes.reportDelimiter start _ c).bind (.pure _ _)
  | case3 opened c t rest hcons found hstray =>
    obtain ⟨hend, hcurrent, hne⟩ := hkind hc hcons
    refine .done (.bind_look_of hend (.bind_look_of hcurrent ?_))
    rw [hstray]
    refine (Takes.reportHere _ c).bind ((Takes.next ?_).bind (.pure _ _))
    rwa [pending_reportHere]
  | case4 opened c t rest hcons expected found hmismatched =>
    obtain ⟨hend, hcurrent, _⟩ := hkind hc hcons
    refine .done (.bind_look_of hend (.bind_look_of hcurrent ?_))
    rw [hmismatched]
    exact (Takes.reportHere _ c).bind (.pure _ _)
  | case5 opened c t rest hcons opened' hconsume hempty =>
    obtain ⟨hend, hcurrent, hne⟩ := hkind hc hcons
    refine .done (.bind_look_of hend (.bind_look_of hcurrent ?_))
    rw [hconsume]
    refine (Takes.next hne).bind ?_
    rw [if_pos hempty]
    exact .pure _ _
  | case6 opened c t rest hcons opened' hconsume hopen ih =>
    obtain ⟨hend, hcurrent, hne⟩ := hkind hc hcons
    have hnext := Takes.next (d := d) hne
    refine .again (.bind_look_of hend (.bind_look_of hcurrent ?_)) (ih (hnext.plain hc) trivial)
    rw [hconsume]
    refine hnext.bind ?_
    rw [if_neg hopen]
    exact .pure _ _

theorem skipBalanced : Realizes d C Script.skipBalanced (move Cursor.skipBalanced) :=
  skipWithin []

/-! ## Runs of units -/

theorem skipUntil (isOver : Cursor → Bool) :
    Realizes d C (Script.skipUntil isOver) (move fun c => c.skipUntil isOver) := by
  apply at_any
  intro c hc _
  show Takes d (Script.loop _ ()) c () (c.skipUntil isOver)
  fun_induction Cursor.skipUntil isOver c with
  | case1 c hnil =>
    exact .done (.bind_look_of (beq_iff_eq.mpr (kind_of_pending_nil hnil)) (.pure _ c))
  | case2 c hne hover =>
    have hend : (c.kind == .endOfFile) = false :=
      beq_false_of_ne fun h => hne (hc.kind_eq_end_iff.mp h)
    exact .done (.bind_look_of hend (.bind_look_of hover (.pure _ c)))
  | case3 c hne hover ih =>
    have hend : (c.kind == .endOfFile) = false :=
      beq_false_of_ne fun h => hne (hc.kind_eq_end_iff.mp h)
    rw [Bool.not_eq_true] at hover
    have hunit := skipBalanced (d := d) (C := anywhere) hc trivial
    exact .again (.bind_look_of hend (.bind_look_of hover (hunit.bind (.pure _ _))))
      (ih (hunit.plain hc) trivial)

/-- Where a run of units is not over, it consumes something. -/
theorem moves_skipUntil {isOver : Cursor → Bool} (hC : ¬C .endOfFile)
    (hgo : ∀ c : Cursor, C c.kind → isOver c = false) :
    Moves C (fun _ => True) (Parser.move fun c => c.skipUntil isOver) := by
  intro c _ hk _
  have hne : c.kind ≠ .endOfFile := fun h => hC (h ▸ hk)
  show (c.skipUntil isOver).remaining < c.remaining
  rw [Cursor.skipUntil, dif_neg (pending_ne_nil hne), if_neg (by rw [hgo c hk]; simp)]
  refine Nat.lt_of_le_of_lt (leads_skipUntil isOver _).remaining_le ?_
  rw [remaining_eq, remaining_eq]
  exact length_skipBalanced_lt (length_pos_of_kind_ne hne)

theorem skipStatement : Realizes d C Script.skipStatement (move Cursor.skipStatement) := by
  intro c hc _
  refine .bind_look ?_
  show Takes d _ c () c.skipStatement
  unfold Cursor.skipStatement
  cases hk : c.kind with
  | closing found =>
    refine (Takes.reportHere _ c).bind (.next ?_)
    rw [pending_reportHere]
    exact pending_ne_nil (by rw [hk]; simp)
  | endOfFile => exact .pure _ c
  | _ =>
    have hunit := skipBalanced (d := d) (C := anywhere) hc trivial
    exact hunit.bind (skipUntil (C := anywhere) atStatementEnd (hunit.plain hc) trivial)

theorem skipExpression (oneLine : Bool) :
    Realizes d C (Script.skipExpression oneLine) (move (Cursor.skipExpression oneLine)) := by
  intro c hc _
  refine .bind_look ?_
  show Takes d _ c () (c.skipExpression oneLine)
  unfold Cursor.skipExpression
  by_cases hends : endsExpression c.kind = true
  · rw [if_pos hends, if_pos hends]
    exact .reportHere _ c
  · rw [if_neg hends, if_neg hends]
    have hunit := skipBalanced (d := d) (C := anywhere) hc trivial
    exact hunit.bind (skipUntil (C := anywhere) _ (hunit.plain hc) trivial)

theorem skipAdjacentParen :
    Realizes d C Script.skipAdjacentParen (move Cursor.skipAdjacentParen) :=
  move_if fun _ _ hc => skipBalanced (C := anywhere) hc trivial

theorem next_skipAdjacentParen : Realizes d (· ≠ .endOfFile)
    (Script.next >>= fun _ => Script.skipAdjacentParen)
    (move fun c => c.advance.skipAdjacentParen) :=
  move_comp next skipAdjacentParen

/-! ## Attributes and clauses -/

theorem skipAttribute :
    Realizes d (· ≠ .endOfFile) Script.skipAttribute (move Cursor.skipAttribute) := by
  intro c hc hk
  have hnext := Takes.next (d := d) (pending_ne_nil hk)
  have hplain := hnext.plain hc
  refine hnext.bind ?_
  show Takes d _ c.advance () c.skipAttribute
  unfold Cursor.skipAttribute
  dsimp only
  cases hname : c.advance.kind.isName with
  | true =>
    refine .bind_look_of hname ?_
    exact next_skipAdjacentParen hplain (by intro h; rw [h] at hname; contradiction)
  | false =>
    refine .bind_look_of hname ?_
    exact .reportHere _ _

/-- An attribute begins with a step. -/
theorem moves_skipAttribute :
    Moves (· = .atSign) (fun _ => True) (Parser.move Cursor.skipAttribute) := by
  refine (Moves.move fun c => ?_).weaken (by rintro _ rfl; simp)
  unfold Cursor.skipAttribute
  dsimp only
  split
  · exact Leads.refl.advance.trans (leads_skipAdjacentParen _)
  · exact Leads.refl.reportHere _

theorem skipGenericWithin (start depth : Nat) : Realizes d C
    (Script.skipGenericWithin start depth) (move (Cursor.skipGenericWithin start depth)) := by
  apply at_any
  intro c hc _
  show Takes d (Script.skipGenericWithin start depth) c () (c.skipGenericWithin start depth)
  unfold Script.skipGenericWithin
  fun_induction Cursor.skipGenericWithin start depth c with
  | case1 depth c hnil =>
    refine .done (.bind_look_of (kind_of_pending_nil hnil) ?_)
    exact (Takes.reportDelimiter start _ c).bind (.pure _ _)
  | case2 depth c hne hk ih =>
    have hnext := Takes.next (d := d) hne
    exact .again (.bind_look_of hk (hnext.bind (.pure _ _))) (ih (hnext.plain hc) trivial)
  | case3 depth c hne hk hlast =>
    refine .done (.bind_look_of hk ((Takes.next hne).bind ?_))
    rw [if_pos hlast]
    exact .pure _ _
  | case4 depth c hne hk hmore ih =>
    have hnext := Takes.next (d := d) hne
    refine .again (.bind_look_of hk (hnext.bind ?_)) (ih (hnext.plain hc) trivial)
    rw [if_neg hmore]
    exact .pure _ _
  | case5 depth c hne hk =>
    exact .done (.bind_look_of hk ((Takes.reportDelimiter start _ c).bind (.pure _ _)))
  | case6 depth c hne hk =>
    exact .done (.bind_look_of hk ((Takes.reportDelimiter start _ c).bind (.pure _ _)))
  | case7 depth c hne hk =>
    exact .done (.bind_look_of hk ((Takes.reportDelimiter start _ c).bind (.pure _ _)))
  | case8 depth c hne hless hgreater hopen hclose hsemicolon ih =>
    have hunit := skipBalanced (d := d) (C := anywhere) hc trivial
    refine .again (.bind_look ?_) (ih (hunit.plain hc) trivial)
    split
    next hk => exact absurd (hc.kind_eq_end_iff.mp hk) hne
    next hk => exact absurd hk hopen
    next hk => exact absurd hk hclose
    next hk => exact absurd hk hsemicolon
    next hk => exact absurd hk hless
    next hk => exact absurd hk hgreater
    · exact hunit.bind (.pure _ _)

theorem skipGenericClause :
    Realizes d C Script.skipGenericClause (move Cursor.skipGenericClause) :=
  fun c hc hk => .bind_look (skipGenericWithin (C := C) c.current.start 0 hc hk)

theorem skipRequirements (afterComma : Bool) : Realizes d C
    (Script.skipRequirements afterComma) (move (Cursor.skipRequirements afterComma)) := by
  apply at_any
  intro c hc _
  show Takes d (Script.skipRequirements afterComma) c () (c.skipRequirements afterComma)
  unfold Script.skipRequirements
  fun_induction Cursor.skipRequirements afterComma c with
  | case1 afterComma c hnil =>
    have hends : endsHeader c.kind = true := by rw [kind_of_pending_nil hnil]; rfl
    refine .done (.bind_look_of (a := true) ?_ (.pure _ _))
    rw [hends, Bool.true_or]
  | case2 afterComma c hne hover => exact .done (.bind_look_of hover (.pure _ _))
  | case3 afterComma c hne hmore ih =>
    have hunit := skipBalanced (d := d) (C := anywhere) hc trivial
    rw [Bool.not_eq_true] at hmore
    exact .again (.bind_look_of hmore (.bind_look (hunit.bind (.pure _ _))))
      (ih (hunit.plain hc) trivial)

theorem skipWhereClause :
    Realizes d (· ≠ .endOfFile) Script.skipWhereClause (move Cursor.skipWhereClause) :=
  move_comp (f := Cursor.advance) next (skipRequirements true)

/-! ## Clauses that may stand here -/

theorem skipGenerics : Realizes d C Script.skipGenerics (move Declaration.skipGenerics) :=
  move_if fun _ _ hc => skipGenericClause (C := anywhere) hc trivial

theorem skipWhere : Realizes d C Script.skipWhere (move Declaration.skipWhere) := by
  refine move_if fun c hk hc => skipWhereClause hc ?_
  rw [eq_of_beq hk]
  simp

theorem skipFailureMark :
    Realizes d C Script.skipFailureMark (move Declaration.skipFailureMark) := by
  refine move_if fun c hk _ => .next (pending_ne_nil ?_)
  intro hend
  simp [hend] at hk

theorem skipDirective :
    Realizes d (· = .poundKeyword) Script.skipDirective (move Declaration.skipDirective) := by
  intro c hc hk
  have hnext := Takes.next (d := d) (pending_ne_nil (by rw [hk]; simp))
  refine .bind_look ?_
  show Takes d _ c () (Declaration.skipDirective c)
  unfold Declaration.skipDirective
  by_cases hif : c.current.text = "#if"
  · rw [hif]
    exact hnext.bind (skipUntil (C := anywhere) _ (hnext.plain hc) trivial)
  by_cases helseif : c.current.text = "#elseif"
  · rw [helseif]
    exact hnext.bind (skipUntil (C := anywhere) _ (hnext.plain hc) trivial)
  by_cases helse : c.current.text = "#else"
  · rw [helse]
    exact hnext
  by_cases hendif : c.current.text = "#endif"
  · rw [hendif]
    exact hnext
  · -- neither side knows the directive
    simp only
    exact skipStatement (C := anywhere) hc trivial

end AnySome.Script.Realizes
