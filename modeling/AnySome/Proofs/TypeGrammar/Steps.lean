import AnySome.Proofs.Run.Loops
import AnySome.Proofs.TypeGrammar.Basic

/-!
# What the readers of types do to a cursor

The readers of types, written out as functions of the cursor they start at.
Whatever is proved about them goes through these equations.
-/

namespace AnySome.TypeExpr

open AnySome.Parser

theorem specifier_eq (c : Cursor) :
    specifier c =
      if c.kind == .atSign then (some (c.writtenSince c.skipAttribute), c.skipAttribute)
      else if isAtSpecifierWord c then (some c.current.text, c.advance)
      else (none, c) := by
  simp only [specifier, bind_isAt, run_ite, bind_get]
  rfl

theorem genericArguments_eq (inner : Parser TypeExpr) (c : Cursor) :
    genericArguments inner c =
      let list := commaSeparated (· == .greaterThan) inner c.advance
      (list.1,
        if list.2.kind == .greaterThan then list.2.advance
        else list.2.reportDelimiter c.current.start .unclosedGenericArguments) := by
  unfold genericArguments
  rw [bind_current, bind_advance, run_bind]
  simp only [bind_isAt, run_ite]
  split <;> rfl

theorem label_eq (c : Cursor) :
    label c =
      match labelWidth c with
      | 0 => (none, c)
      | 1 => (some (c.writtenSince c.advance), c.advance.advance)
      | _ => (some (c.writtenSince c.advance.advance), c.advance.advance.advance) := by
  unfold label
  rw [bind_get]
  generalize labelWidth c = width
  match width with
  | 0 => rfl
  | 1 => rfl
  | _ + 2 => rfl

theorem element_eq (inner : Parser TypeExpr) (c : Cursor) :
    element inner c =
      let found := label c
      let type := inner found.2
      (⟨found.1, type.1, type.2.kind == .ellipsis⟩,
        if type.2.kind == .ellipsis then type.2.advance else type.2) := by
  unfold element
  rw [run_bind, run_bind]
  simp only [bind_isAt, run_ite]
  split <;> rfl

theorem effect_eq (c : Cursor) :
    effect c =
      if c.current.onNewLine then (none, c)
      else if c.current.isWord "async" then (some "async", c.advance)
      else if c.kind == .keyword .throwsEffect then
        (some (c.writtenSince c.advance.skipAdjacentParen), c.advance.skipAdjacentParen)
      else (none, c) := by
  simp only [effect, bind_current, run_ite, bind_isAt]
  rfl

theorem effects_eq (c : Cursor) :
    effects c = (joinEffects (many effect c).1, (many effect c).2) := by
  unfold effects
  rw [run_bind]
  cases (many effect c).1 <;> rfl

theorem tupleOrFunction_eq (inner : Parser TypeExpr) (c : Cursor) :
    tupleOrFunction inner c =
      let list := commaSeparated endsList (element inner) c.advance
      let closed := (close .paren c.current.start list.2).2
      let found := many effect closed
      if found.2.kind == .arrow then
        (.function list.1 (joinEffects found.1) (inner found.2.advance).1,
          (inner found.2.advance).2)
      else
        (.tuple list.1,
          if (joinEffects found.1).isSome then found.2.reportHere (.missing .arrow)
          else found.2) := by
  unfold tupleOrFunction
  rw [bind_current, bind_advance, run_bind, run_bind, run_bind, effects_eq]
  simp only [bind_isAt, run_ite]
  split
  · rfl
  split <;> rfl

theorem primary_eq (inner : Parser TypeExpr) (c : Cursor) :
    primary inner c =
      match c.kind with
      | .identifier =>
        if argumentsFollow c.advance then
          (.generic c.current.text (genericArguments inner c.advance).1,
            (genericArguments inner c.advance).2)
        else (.named c.current.text, c.advance)
      | .opening .paren => tupleOrFunction inner c
      | .opening .square | .numericLiteral =>
        (.verbatim (c.writtenSince c.skipBalanced), c.skipBalanced)
      | _ => (.verbatim "", c.reportHere (.missing .type)) := by
  unfold primary
  rw [bind_current, bind_kind]
  generalize c.kind = k
  cases k with
  | identifier =>
    simp only [bind_advance, bind_get, run_ite]
    rfl
  | opening bracket => cases bracket <;> rfl
  | _ => rfl

theorem suffix_eq (inner : Parser TypeExpr) (start : Cursor) (type : TypeExpr) (c : Cursor) :
    suffix inner start type c =
      if c.current.isSeparated then (none, c)
      else
        match c.kind with
        | .dot =>
          if c.advance.kind.isName then
            if argumentsFollow c.advance.advance then
              (some (.verbatim
                (start.writtenSince (genericArguments inner c.advance.advance).2)),
                (genericArguments inner c.advance.advance).2)
            else
              (some (.verbatim (start.writtenSince c.advance.advance)), c.advance.advance)
          else (none, c.advance.reportHere (.missing .memberTypeName))
        | .question => (some (.optional type), c.advance)
        | .exclamation => (some (.verbatim (start.writtenSince c.advance)), c.advance)
        | _ => (none, c) := by
  simp only [suffix, bind_isSeparated, run_ite, bind_kind]
  generalize c.kind = k
  cases k with
  | dot =>
    simp only [bind_advance, bind_isAtName, bind_get, run_ite]
    rfl
  | _ => rfl

theorem suffixed_eq (inner : Parser TypeExpr) (c : Cursor) :
    suffixed inner c = iterate (suffix inner c) (primary inner c).1 (primary inner c).2 := rfl

theorem composedWith_eq (inner : Parser TypeExpr) (c : Cursor) :
    composedWith inner c =
      if c.kind == .ampersand then (some (), (suffixed inner c.advance).2) else (none, c) := by
  simp only [composedWith, bind_isAt, run_ite]
  rfl

theorem level_eq (inner : Parser TypeExpr) (c : Cursor) :
    level inner c =
      let found := many specifier c
      if !found.1.isEmpty then (.attributed found.1 (inner found.2).1, (inner found.2).2)
      else
        match qualifierAt found.2 with
        | some q => (.qualified q (inner found.2.advance).1, (inner found.2.advance).2)
        | none =>
          let type := suffixed inner found.2
          if type.2.kind == .ampersand then
            (.verbatim (c.writtenSince (many (composedWith inner) type.2).2),
              (many (composedWith inner) type.2).2)
          else type := by
  unfold level
  rw [bind_get, run_bind, run_ite]
  dsimp only
  split
  · rfl
  rw [bind_get]
  cases qualifierAt (many specifier c).2 with
  | some q => rfl
  | none =>
    dsimp only
    rw [run_bind, bind_isAt, run_ite]
    rfl

end AnySome.TypeExpr
