import AnySome.TypeExpr.Basic

/-!
# The types inside a type

A type, its parts, their parts and so on are its nodes. What is said of a type
by looking at one layer, that it is no optional of a qualified type, say, is
said of all layers by saying it of all nodes.

## Main results

* `TypeExpr.Throughout` — a property of all nodes, with one equivalence for each
  shape of type.
-/

namespace AnySome.TypeExpr

/-! ## All types inside a type -/

mutual
/-- The type and all types inside it. -/
def nodes : TypeExpr → List TypeExpr
  | .named name => [.named name]
  | .verbatim text => [.verbatim text]
  | .generic base arguments => .generic base arguments :: nodesList arguments
  | .optional t => .optional t :: nodes t
  | .tuple elements => .tuple elements :: nodesElements elements
  | .function parameters effects result =>
    .function parameters effects result :: (nodesElements parameters ++ nodes result)
  | .qualified q t => .qualified q t :: nodes t
  | .attributed specifiers t => .attributed specifiers t :: nodes t

/-- All types of a list with the types inside them. -/
def nodesList : List TypeExpr → List TypeExpr
  | [] => []
  | t :: ts => nodes t ++ nodesList ts

/-- All types of some elements with the types inside them. -/
def nodesElements : List (Element TypeExpr) → List TypeExpr
  | [] => []
  | ⟨_, t, _⟩ :: es => nodes t ++ nodesElements es
end

theorem self_mem_nodes (t : TypeExpr) : t ∈ t.nodes := by
  cases t <;> exact List.mem_cons_self

/-! ## What holds of all of them -/

/-- Every type inside the type has the property. -/
def Throughout (P : TypeExpr → Prop) (t : TypeExpr) : Prop := ∀ u ∈ t.nodes, P u

namespace Throughout

variable {P Q : TypeExpr → Prop} {t : TypeExpr}

theorem self (h : Throughout P t) : P t := h t t.self_mem_nodes

theorem and (hP : Throughout P t) (hQ : Throughout Q t) : Throughout (fun u => P u ∧ Q u) t :=
  fun u hu => ⟨hP u hu, hQ u hu⟩

theorem optional_iff : Throughout P (.optional t) ↔ P (.optional t) ∧ Throughout P t :=
  List.forall_mem_cons

theorem qualified_iff {q : Qualifier} :
    Throughout P (.qualified q t) ↔ P (.qualified q t) ∧ Throughout P t :=
  List.forall_mem_cons

theorem attributed_iff {specifiers : List String} :
    Throughout P (.attributed specifiers t) ↔ P (.attributed specifiers t) ∧ Throughout P t :=
  List.forall_mem_cons

theorem named_iff {name : String} : Throughout P (.named name) ↔ P (.named name) :=
  List.forall_mem_singleton

theorem verbatim_iff {text : String} : Throughout P (.verbatim text) ↔ P (.verbatim text) :=
  List.forall_mem_singleton

theorem list_iff {ts : List TypeExpr} :
    (∀ u ∈ nodesList ts, P u) ↔ ∀ t ∈ ts, Throughout P t := by
  induction ts with
  | nil => simp [nodesList]
  | cons t ts ih => rw [nodesList, List.forall_mem_append, ih, List.forall_mem_cons, Throughout]

theorem elements_iff {es : List (Element TypeExpr)} :
    (∀ u ∈ nodesElements es, P u) ↔ ∀ x ∈ es, Throughout P x.type := by
  induction es with
  | nil => simp [nodesElements]
  | cons x es ih =>
    rw [nodesElements, List.forall_mem_append, ih, List.forall_mem_cons, Throughout]

theorem generic_iff {base : String} {arguments : List TypeExpr} :
    Throughout P (.generic base arguments) ↔
      P (.generic base arguments) ∧ ∀ t ∈ arguments, Throughout P t := by
  unfold Throughout
  rw [nodes, List.forall_mem_cons, list_iff]
  rfl

theorem tuple_iff {es : List (Element TypeExpr)} :
    Throughout P (.tuple es) ↔ P (.tuple es) ∧ ∀ x ∈ es, Throughout P x.type := by
  unfold Throughout
  rw [nodes, List.forall_mem_cons, elements_iff]
  rfl

theorem function_iff {es : List (Element TypeExpr)} {effects : Option String} :
    Throughout P (.function es effects t) ↔
      P (.function es effects t) ∧ (∀ x ∈ es, Throughout P x.type) ∧ Throughout P t := by
  unfold Throughout
  rw [nodes, List.forall_mem_cons, List.forall_mem_append, elements_iff]
  rfl

end Throughout

end AnySome.TypeExpr
