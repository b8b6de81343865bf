import AnySome.Source.Blank
import AnySome.Source.Name
import AnySome.TypeExpr.Basic

/-!
# Choosing the qualifier

Which qualifier belongs to a place depends on the declaration it is in and,
for a parameter, on the shape of its default value. `some` names one hidden
type that a caller or the body fixes, so it is used only for parameters and
results, and not for a parameter whose default is read through a shared
instance.

## Main results

* `Policy.qualifierFor_eq_none_iff` — only computed properties are left alone.
* `Policy.mode_of_qualifierFor_some` — `some` is chosen in strict mode only.
-/

namespace AnySome

/-! ## Modes -/

/-- How far the migration goes. -/
inductive Mode where
  /-- Prefer `some` where it is legal. -/
  | strict
  /-- Always `any`. -/
  | light
deriving DecidableEq, Repr, Inhabited

/-- A text that is no mode, trimmed and in lower case. -/
structure UnknownMode where
  text : String
deriving DecidableEq, Repr

/-- The refusal in words. -/
def UnknownMode.message (u : UnknownMode) : String :=
  "unknown policy '" ++ u.text ++ "' (expected 'strict' or 'light')"

namespace Mode

/-- How the mode is written. -/
def label : Mode → String
  | .strict => "strict"
  | .light => "light"

/-- Reads a mode, in upper or lower case and with blanks around it. -/
def parse (text : String) : Except UnknownMode Mode :=
  match Text.asciiLower (Text.trim text) with
  | "strict" => .ok .strict
  | "light" => .ok .light
  | other => .error ⟨other⟩

end Mode

/-! ## Places -/

/-- The place of a type in a declaration. -/
inductive Place where
  | storedProperty
  | computedProperty
  | functionParameter
  | functionResult
  | initializerParameter
  | localVariable
  | aliasTarget
deriving DecidableEq, Repr

/-- What the default value of a parameter looks like. -/
inductive DefaultShape where
  | absent
  /-- Made or computed at the call: `Foo()`, `nil`, `self.make()`. -/
  | fresh
  /-- Read through a shared instance. -/
  | shared
deriving DecidableEq, Repr

namespace DefaultShape

/-- What a default value read through a shared instance holds. -/
def sharedAccess : String := ".shared."

/-- The shape of a default value. -/
def ofDefault : Option String → DefaultShape
  | none => .absent
  | some text => if Name.occursIn sharedAccess text then .shared else .fresh

/-- A default value is read through a shared instance if its text says so
somewhere. -/
theorem ofDefault_eq_shared_iff (default : Option String) :
    ofDefault default = .shared ↔
      ∃ text ∈ default, ∃ front back, text.toList = front ++ sharedAccess.toList ++ back := by
  cases default with
  | none => simp [ofDefault]
  | some text =>
    simp only [Option.mem_some_iff, exists_eq_left', ← Name.occursIn_iff]
    unfold ofDefault
    split <;> simp_all

end DefaultShape

/-! ## Policies -/

/-- What is fixed for a whole run. -/
structure Policy where
  mode : Mode
  /-- Leave every type that carries a qualifier exactly as it is. -/
  conservative : Bool
deriving DecidableEq, Repr, Inhabited

namespace Policy

/-- The qualifier for places where either is legal. -/
def preferred (p : Policy) : Qualifier :=
  match p.mode with
  | .strict => .some
  | .light => .any

/-- The qualifier for a place; none where types are left alone. -/
def qualifierFor (p : Policy) (place : Place) (default : DefaultShape) : Option Qualifier :=
  match place with
  | .functionParameter | .initializerParameter =>
    if default = .shared then some .any else some p.preferred
  | .functionResult => some p.preferred
  | .storedProperty | .localVariable | .aliasTarget => some .any
  | .computedProperty => none

/-- Only computed properties are left alone. -/
theorem qualifierFor_eq_none_iff (p : Policy) (place : Place) (default : DefaultShape) :
    p.qualifierFor place default = none ↔ place = .computedProperty := by
  cases place <;> simp [qualifierFor] <;> split <;> simp

/-- `some` is chosen in strict mode only. -/
theorem mode_of_qualifierFor_some {p : Policy} {place : Place} {default : DefaultShape}
    (h : p.qualifierFor place default = some .some) : p.mode = .strict := by
  have hpreferred : p.preferred = .some → p.mode = .strict := by
    unfold preferred
    split <;> simp_all
  unfold qualifierFor at h
  split at h
  · split at h
    · contradiction
    · exact hpreferred (Option.some.inj h)
  · split at h
    · contradiction
    · exact hpreferred (Option.some.inj h)
  · exact hpreferred (Option.some.inj h)
  all_goals contradiction

end Policy

end AnySome
