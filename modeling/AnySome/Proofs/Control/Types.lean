import AnySome.Proofs.Control.Skipping

/-!
# The script of types

Types are read by a routine that calls itself. Before it does, it looks whether
too many types are being read, and it counts one more while it reads. A call
with as many types open as the parser has levels left of its limit takes the
reader where the parser goes; so the calls never go on forever.

## Main results

* `Script.Realizes.level` — one level, if the calls inside it are realized.
* `Script.Realizes.type` — the routine, with the depth counted so far.
-/

namespace AnySome.Script

open AnySome.Cursor AnySome.Parser

variable {d : Depths} {C : Kind → Prop}

-- A parser of many steps is a deep term for the search of instances.
set_option synthInstance.maxSize 4096

/-! ## Questions about types -/

/-- A question about what stands behind the next token. -/
theorem Answers.behind {α : Type} (f : Cursor → α) :
    Answers d (· ≠ .endOfFile) (lookahead (Script.next >>= fun _ => look f))
      fun c => f c.advance :=
  fun _ _ hk => ((Takes.next (pending_ne_nil hk)).bind (.look f _)).lookahead

theorem Answers.isTypeNext : Answers d (· = .identifier) Script.isTypeNext TypeExpr.isTypeNext :=
  fun _ hc hk => Answers.behind _ hc (by rw [hk]; simp)

theorem Answers.isAtSpecifierWord :
    Answers d C Script.isAtSpecifierWord TypeExpr.isAtSpecifierWord := by
  intro c hc _
  unfold TypeExpr.isAtSpecifierWord
  cases hinout : c.kind == .keyword .inoutSpecifier with
  | true => exact .bind_look_of hinout (.pure _ c)
  | false =>
    refine .bind_look_of hinout ?_
    cases hword : c.kind == .identifier && TypeExpr.specifierWords.contains c.current.text with
    | true =>
      refine .bind_look_of hword ?_
      rw [Bool.and_eq_true, beq_iff_eq] at hword
      exact isTypeNext hc hword.1
    | false => exact .bind_look_of hword (.pure _ c)

theorem Answers.qualifierAt : Answers d C Script.qualifierAt TypeExpr.qualifierAt := by
  intro c hc _
  unfold TypeExpr.qualifierAt
  cases hname : c.kind == .identifier with
  | true =>
    refine .bind_look_of hname (.bind_look ((isTypeNext hc (eq_of_beq hname)).bind ?_))
    cases TypeExpr.isTypeNext c <;> exact .pure _ c
  | false => exact .bind_look_of hname (.pure _ c)

theorem Answers.labelWidth : Answers d C Script.labelWidth TypeExpr.labelWidth := by
  intro c hc _
  unfold TypeExpr.labelWidth
  cases hname : c.kind.isName with
  | false => exact .bind_look_of hname (.pure _ c)
  | true =>
    have hfirst := Realizes.next_name (d := d) hc hname
    refine .bind_look_of hname ?_
    rw [if_pos rfl]
    dsimp only
    cases hcolon : c.advance.kind == .colon with
    | true => exact .lookahead (hfirst.bind (.bind_look_of hcolon (.pure 1 _)))
    | false =>
      cases hsecond : c.advance.kind.isName with
      | false =>
        exact .lookahead (hfirst.bind (.bind_look_of hcolon (.bind_look_of hsecond (.pure 0 _))))
      | true =>
        have hnext := Realizes.next_name (d := d) (hfirst.plain hc) hsecond
        cases hend : c.advance.advance.kind == .colon with
        | true =>
          exact .lookahead (hfirst.bind (.bind_look_of hcolon (.bind_look_of hsecond
            (hnext.bind (.bind_look_of hend (.pure 2 _))))))
        | false =>
          exact .lookahead (hfirst.bind (.bind_look_of hcolon (.bind_look_of hsecond
            (hnext.bind (.bind_look_of hend (.pure 0 _))))))

namespace Realizes

variable {inner : Parser TypeExpr}

/-! ## Words in front of a type -/

theorem specifier : Realizes d C Script.specifier TypeExpr.specifier := by
  apply ite_isAt
  · exact (skipAttribute.weaken (by rintro _ rfl; simp)).written.bind fun _ => pure
  · apply bind_asks .isAtSpecifierWord
    intro c _
    apply ite
    · intro hword
      apply bind_current
      intro t ht
      refine (next_of ?_).bind fun _ => pure
      rw [ht]
      intro hend
      simp [TypeExpr.isAtSpecifierWord, hend] at hword
    · exact fun _ => pure

theorem moves_specifier : Moves anywhere (·.isSome = true) TypeExpr.specifier := by
  refine .ite_isAt (.bind (.written ?_)) ?_
  · exact moves_skipAttribute
  · apply Moves.bind_get
    intro c _
    apply Moves.ite
    · intro hword
      apply Moves.bind_current
      intro t ht
      apply Moves.advance_bind
      rw [ht]
      intro hend
      simp [TypeExpr.isAtSpecifierWord, hend] at hword
    · exact fun _ => .none

/-! ## Arguments, elements and effects -/

theorem labelWidth_cases (c : Cursor) : TypeExpr.labelWidth c = 0 ∨
    (TypeExpr.labelWidth c = 1 ∧ c.kind.isName = true ∧ c.advance.kind = .colon) ∨
    (TypeExpr.labelWidth c = 2 ∧ c.kind.isName = true ∧ c.advance.kind.isName = true ∧
      c.advance.advance.kind = .colon) := by
  unfold TypeExpr.labelWidth
  split
  next hname =>
    dsimp only
    split
    next hcolon => exact .inr (.inl ⟨rfl, hname, eq_of_beq hcolon⟩)
    · split
      next hboth =>
        rw [Bool.and_eq_true, beq_iff_eq] at hboth
        exact .inr (.inr ⟨rfl, hname, hboth⟩)
      · exact .inl rfl
  · exact .inl rfl

theorem label : Realizes d C Script.label TypeExpr.label := by
  intro c hc _
  refine (Answers.labelWidth (C := anywhere) hc trivial).bind ?_
  unfold TypeExpr.label
  rw [Parser.bind_get]
  rcases labelWidth_cases c with hwidth | ⟨hwidth, hname, hcolon⟩ |
    ⟨hwidth, hname, hsecond, hcolon⟩
  · rw [hwidth]
    exact .pure _ c
  · rw [hwidth]
    have hfirst := next_name (d := d) hc hname
    have hend := next_of (d := d) (a := .colon) (by simp) (hfirst.plain hc) hcolon
    exact hfirst.written.bind (hend.bind (.pure _ _))
  · rw [hwidth]
    have hfirst := next_name (d := d) hc hname
    have hnext := next_name (d := d) (hfirst.plain hc) hsecond
    have hend := next_of (d := d) (a := .colon) (by simp) (hnext.plain (hfirst.plain hc)) hcolon
    exact (hfirst.bind hnext).written.bind (hend.bind (.pure _ _))

theorem typeEffect : Realizes d C Script.typeEffect TypeExpr.effect := by
  apply bind_current
  intro token _
  apply ite (fun _ => pure)
  intro _
  apply ite
  · intro hasync
    refine (next_of ?_).bind fun _ => pure
    intro hend
    simp [Token.isWord, hend] at hasync
  · intro _
    apply ite_isAt
    · exact (next_skipAdjacentParen.weaken (by rintro _ rfl; simp)).written.bind fun _ => pure
    · exact pure

theorem moves_typeEffect : Moves anywhere (·.isSome = true) TypeExpr.effect := by
  apply Moves.bind_current
  intro token _
  apply Moves.ite (fun _ => .none)
  intro _
  apply Moves.ite
  · intro hasync
    apply Moves.advance_bind
    intro hend
    simp [Token.isWord, hend] at hasync
  · intro _
    refine .ite_isAt (.bind (.written ?_)) .none
    exact (Moves.move fun _ => leads_skipAdjacentParen _).weaken (by rintro _ rfl; simp)

theorem typeEffects : Realizes d C Script.typeEffects TypeExpr.effects := by
  refine (many typeEffect moves_typeEffect).bind fun found => ?_
  cases found <;> exact pure

/-- Generic arguments directly behind a name, if they are there. -/
theorem ite_arguments {α : Type} {P Q : Script α} {p q : Parser α}
    (hP : Realizes d (· = .lessThan) P p) (hQ : Realizes d C Q q) :
    Realizes d C (.look TypeExpr.argumentsFollow >>= fun b => if b then P else Q)
      (MonadState.get >>= fun c => if TypeExpr.argumentsFollow c then p else q) := by
  intro c hc hk
  refine .bind_look ?_
  rw [Parser.bind_get]
  split
  next hfollow =>
    unfold TypeExpr.argumentsFollow at hfollow
    rw [Bool.and_eq_true, beq_iff_eq] at hfollow
    exact hP hc hfollow.1
  · exact hQ hc hk

section inner

variable [Steady inner] (hinner : Realizes d anywhere (.call .type) inner)

include hinner

theorem genericArguments : Realizes d (· = .lessThan) Script.genericArguments
    (TypeExpr.genericArguments inner) := by
  apply bind_current
  intro opening hk
  refine (next_of (by rw [hk]; simp)).bind fun _ => ?_
  refine (commaSeparated _ hinner).bind fun arguments => ?_
  apply ite_isAt
  · exact (next_of (by simp)).bind fun _ => pure
  · exact (reportDelimiter _ _).bind fun _ => pure

omit [Steady inner] in
theorem element : Realizes d C Script.element (TypeExpr.element inner) := by
  refine label.bind fun name => hinner.bind fun type => ?_
  apply bind_isAt
  · exact (next_of (by simp)).bind fun _ => pure
  · exact pure

theorem tupleOrFunction : Realizes d (· = .opening .paren)
    Script.tupleOrFunction (TypeExpr.tupleOrFunction inner) := by
  apply bind_current
  intro opening hk
  refine (next_of (by rw [hk]; simp)).bind fun _ => ?_
  refine (commaSeparated _ (element hinner)).bind fun elements => ?_
  refine (close _ _).bind fun _ => typeEffects.bind fun effects => ?_
  apply ite_isAt
  · exact (next_of (by simp)).bind fun _ => hinner.bind fun _ => pure
  · apply ite
    · exact fun _ => (reportHere _).bind fun _ => pure
    · exact fun _ => pure

/-! ## Types with suffixes -/

theorem primary : Realizes d C Script.primary (TypeExpr.primary inner) := by
  apply bind_current
  intro token _
  apply bind_kind
  intro k _
  cases k with
  | identifier =>
    refine (next_of (by simp)).bind fun _ => ?_
    apply ite_arguments
    · exact (genericArguments hinner).bind fun _ => pure
    · exact pure
  | opening bracket =>
    cases bracket with
    | paren => exact tupleOrFunction hinner
    | square => exact skipBalanced.written.bind fun _ => pure
    | brace => exact (reportHere _).bind fun _ => pure
  | numericLiteral => exact skipBalanced.written.bind fun _ => pure
  | _ => exact (reportHere _).bind fun _ => pure

theorem suffix (start : Cursor) (type : TypeExpr) :
    Realizes d C (Script.suffix start type) (TypeExpr.suffix inner start type) := by
  apply bind_isSeparated
  intro separated
  apply ite (fun _ => pure)
  intro _
  apply bind_kind
  intro k _
  cases k with
  | dot =>
    refine (next_of (by simp)).bind fun _ => ?_
    apply ite_isAtName
    · refine next_name.bind fun _ => ?_
      apply ite_arguments
      · exact (genericArguments hinner).bind fun _ => bind_get fun _ _ => pure
      · exact bind_get fun _ _ => pure
    · exact (reportHere _).bind fun _ => pure
  | question => exact (next_of (by simp)).bind fun _ => pure
  | exclamation => exact (next_of (by simp)).bind fun _ => bind_get fun _ _ => pure
  | _ => exact pure

omit hinner in
theorem moves_suffix (start : Cursor) (type : TypeExpr) :
    Moves anywhere (·.isSome = true) (TypeExpr.suffix inner start type) := by
  apply Moves.bind_isSeparated
  intro separated
  apply Moves.ite (fun _ => .none)
  intro _
  apply Moves.bind_kind
  intro k _
  cases k with
  | dot => exact .advance_bind (by simp)
  | question => exact .advance_bind (by simp)
  | exclamation => exact .advance_bind (by simp)
  | _ => exact .none

theorem suffixed : Realizes d C Script.suffixed (TypeExpr.suffixed inner) :=
  bind_get fun start _ => (primary hinner).bind fun type =>
    iterate (suffix hinner start) (moves_suffix start) type

/-! ## One level -/

theorem composedWith : Realizes d C Script.composedWith (TypeExpr.composedWith inner) := by
  apply ite_isAt
  · exact (next_of (by simp)).bind fun _ => (suffixed hinner).bind fun _ => pure
  · exact pure

omit hinner in
theorem moves_composedWith :
    Moves anywhere (·.isSome = true) (TypeExpr.composedWith inner) :=
  .ite_isAt (.advance_bind (by simp)) .none

theorem level : Realizes d C Script.level (TypeExpr.level inner) := by
  apply bind_get
  intro start _
  refine (many specifier moves_specifier).bind fun specifiers => ?_
  apply ite
  · exact fun _ => hinner.bind fun _ => pure
  · intro _
    apply bind_asks .qualifierAt
    intro c _
    cases hq : TypeExpr.qualifierAt c with
    | some q =>
      refine (next.weaken ?_).bind fun _ => hinner.bind fun _ => pure
      rintro k rfl hend
      simp [TypeExpr.qualifierAt, hend] at hq
    | none =>
      refine (suffixed hinner).bind fun type => ?_
      apply ite_isAt
      · exact (many (composedWith hinner) moves_composedWith).bind fun _ =>
          bind_get fun _ _ => pure
      · exact pure

end inner

/-! ## The routine -/

/-- With as many levels left as there are types that may still be opened, the
parser goes where a call does. -/
theorem type (n : Nat) (hlevels : d.types + n = TypeExpr.nestingLimit) :
    Realizes d C (.call .type) (TypeExpr.parser n) := by
  induction n generalizing d C with
  | zero =>
    intro c hc _
    refine .call (.bind_depths ?_)
    rw [if_pos (by omega)]
    exact (Takes.reportHere _ c).bind (.pure _ _)
  | succ n ih =>
    intro c hc _
    refine .call (.bind_depths ?_)
    rw [if_neg (by omega)]
    exact .inType (level (C := anywhere) (ih (by dsimp only; omega)) hc trivial)

end Realizes

end AnySome.Script
