import AnySome.Proofs.Migration.Sites
import Mathlib.Data.List.Forall2

/-!
# What a migration leaves alone

A migration walks a tree and tells by a flag, which it sets and resets on the
way down, whether it is directly in a protocol. What the walk comes to is
said here without it: the relations below relate a tree to another one field
by field, the members of a declaration are related as what stands directly in
that declaration, and only the type of an ascription is ever another one.

The relations leave no choice, and the migrated file is the one they allow.

## Main results

* `Migration.qualifiesList_iff` — what is made of declarations that stand
  directly in another one, or in a file.
* `Migration.file_eq_iff` — what is made of a file.
-/

namespace AnySome

/-- The default value is read through a shared instance. -/
def Parameter.IsShared (p : Parameter) : Prop :=
  ∃ value front back, p.default = some value ∧
    value.text.toList = front ++ ".shared.".toList ++ back

/-- What stands directly in `outer` is a requirement of a protocol. At the top
of a file there is no `outer`. -/
def Declaration.IsProtocol (outer : Option Declaration) : Prop :=
  ∃ name span members, outer = some (.protocol name span members)

namespace Migration

variable (m : Migration)

/-! ## The relations -/

/-- The type is qualified with `q`. The span and what was read there stay. -/
def requalified (q : Qualifier) (a : Ascription) : Ascription :=
  { a with type := a.type.requalify m.rules q }

/-- A variable of a file, of a type or of a body. -/
structure QualifiesBinding (b c : Binding) : Prop where
  pattern : c.pattern = b.pattern
  initializer : c.initializer = b.initializer
  accessor : c.accessor = b.accessor
  computed : b.accessor = some .computed → c.ascription = b.ascription
  stored : b.accessor ≠ some .computed → c.ascription = b.ascription.map (m.requalified .any)

/-- A variable declaration, entry by entry. -/
structure QualifiesVariable (d e : VariableDecl) : Prop where
  isLet : e.isLet = d.isLet
  span : e.span = d.span
  bindings : List.Forall₂ m.QualifiesBinding d.bindings e.bindings

/-- A body, variable by variable. -/
structure QualifiesBody (b c : CodeBlock) : Prop where
  span : c.span = b.span
  locals : List.Forall₂ m.QualifiesVariable b.locals c.locals

/-- A parameter of a function or an initializer. -/
structure QualifiesParameter (p q : Parameter) : Prop where
  names : q.names = p.names
  variadic : q.variadic = p.variadic
  default : q.default = p.default
  existential : p.variadic = true ∨ p.IsShared →
    q.ascription = m.requalified .any p.ascription
  preferred : p.variadic = false → ¬p.IsShared →
    q.ascription = m.requalified m.policy.preferred p.ascription

/-- A function that stands directly in `outer`. -/
structure QualifiesFunction (outer : Option Declaration) (d e : FunctionDecl) : Prop where
  name : e.name = d.name
  span : e.span = d.span
  parameters : List.Forall₂ m.QualifiesParameter d.parameters e.parameters
  requirement : Declaration.IsProtocol outer → e.result = d.result.map (m.requalified .any)
  result : ¬Declaration.IsProtocol outer →
    e.result = d.result.map (m.requalified m.policy.preferred)
  body : Option.Rel m.QualifiesBody d.body e.body

/-- An initializer. -/
structure QualifiesInitializer (d e : InitializerDecl) : Prop where
  span : e.span = d.span
  parameters : List.Forall₂ m.QualifiesParameter d.parameters e.parameters
  body : Option.Rel m.QualifiesBody d.body e.body

/-- A name for a type. -/
structure QualifiesAlias (d e : AliasDecl) : Prop where
  name : e.name = d.name
  span : e.span = d.span
  target : e.target = m.requalified .any d.target

mutual
/-- A declaration that stands directly in `outer`, and what a migration makes
of it. -/
inductive Qualifies : Option Declaration → Declaration → Declaration → Prop where
  | protocol {outer : Option Declaration} {name : String} {span : Span}
      {members news : List Declaration} :
      QualifiesList (some (.protocol name span members)) members news →
      Qualifies outer (.protocol name span members) (.protocol name span news)
  | nominal {outer : Option Declaration} {kind : NominalKind} {name : String} {span : Span}
      {members news : List Declaration} :
      QualifiesList (some (.nominal kind name span members)) members news →
      Qualifies outer (.nominal kind name span members) (.nominal kind name span news)
  | bindings {outer : Option Declaration} {d e : VariableDecl} :
      m.QualifiesVariable d e → Qualifies outer (.bindings d) (.bindings e)
  | function {outer : Option Declaration} {d e : FunctionDecl} :
      m.QualifiesFunction outer d e → Qualifies outer (.function d) (.function e)
  | initializer {outer : Option Declaration} {d e : InitializerDecl} :
      m.QualifiesInitializer d e → Qualifies outer (.initializer d) (.initializer e)
  | typeAlias {outer : Option Declaration} {d e : AliasDecl} :
      m.QualifiesAlias d e → Qualifies outer (.typeAlias d) (.typeAlias e)

/-- Declarations that follow each other directly in `outer`, one by one. -/
inductive QualifiesList : Option Declaration → List Declaration → List Declaration → Prop where
  | nil {outer : Option Declaration} : QualifiesList outer [] []
  | cons {outer : Option Declaration} {d e : Declaration} {ds es : List Declaration} :
      Qualifies outer d e → QualifiesList outer ds es → QualifiesList outer (d :: ds) (e :: es)
end

/-! ## Lists and options

Each relation is the graph of a function, so related lists are images of each
other under that function. -/

theorem forall₂_iff_map {α : Type} {R : α → α → Prop} {f : α → α}
    (h : ∀ a b, R a b ↔ f a = b) (as bs : List α) : List.Forall₂ R as bs ↔ as.map f = bs := by
  have hgraph : R = fun a b => f a = b := by
    funext a b
    exact propext (h a b)
  rw [hgraph, ← List.forall₂_map_left_iff, List.forall₂_eq_eq_eq]

theorem rel_iff_map {α : Type} {R : α → α → Prop} {f : α → α}
    (h : ∀ a b, R a b ↔ f a = b) (a b : Option α) : Option.Rel R a b ↔ a.map f = b := by
  constructor
  · rintro (hab | _)
    · exact congrArg some ((h _ _).mp hab)
    · rfl
  · rintro rfl
    cases a with
    | none => exact .none
    | some a => exact .some ((h _ _).mpr rfl)

/-! ## One ascription -/

variable {m : Migration}

theorem atSite_of_keyword {s : Site} {q : Qualifier} (h : m.keyword s = some q) :
    m.atSite s = m.requalified q := by
  funext a
  unfold atSite
  rw [h]
  rfl

theorem atSite_of_none {s : Site} (h : m.keyword s = none) : m.atSite s = id := by
  funext a
  unfold atSite
  rw [h]
  rfl

theorem isShared_iff (p : Parameter) :
    p.IsShared ↔ DefaultShape.ofDefault (p.default.map DefaultValue.text) = .shared := by
  rw [DefaultShape.ofDefault_eq_shared_iff]
  constructor
  · rintro ⟨value, front, back, hvalue, htext⟩
    exact ⟨value.text, Option.mem_map_of_mem _ hvalue, front, back, htext⟩
  · rintro ⟨text, hmem, front, back, htext⟩
    obtain ⟨value, hvalue, rfl⟩ := Option.map_eq_some_iff.mp (Option.mem_def.mp hmem)
    exact ⟨value, front, back, hvalue, htext⟩

theorem keyword_existential {p : Parameter} (h : p.variadic = true ∨ p.IsShared) :
    m.keyword p.site = some .any := by
  rw [isShared_iff] at h
  exact if_pos h

theorem keyword_preferred {p : Parameter} (hvariadic : p.variadic = false)
    (hshared : ¬p.IsShared) : m.keyword p.site = some m.policy.preferred := by
  rw [isShared_iff] at hshared
  exact if_neg (by simp [hvariadic, hshared])

/-! ## Variables -/

section Variables

-- The sites of properties are such, and those of local variables.
variable (site : Option Accessor → Site)
  (hsite : ∀ accessor, m.keyword (site accessor) =
    if accessor = some Accessor.computed then none else some .any)

include hsite

theorem qualifiesBinding_iff (b c : Binding) :
    m.QualifiesBinding b c ↔ b.mapSites m.atSite site = c := by
  have hcomputed : b.accessor = some .computed →
      b.ascription.map (m.atSite (site b.accessor)) = b.ascription := by
    intro hblock
    have hkey : m.keyword (site b.accessor) = none := by rw [hsite, if_pos hblock]
    rw [atSite_of_none hkey, Option.map_id_apply]
  have hstored : b.accessor ≠ some .computed →
      b.ascription.map (m.atSite (site b.accessor)) = b.ascription.map (m.requalified .any) := by
    intro hblock
    have hkey : m.keyword (site b.accessor) = some .any := by rw [hsite, if_neg hblock]
    rw [atSite_of_keyword hkey]
  constructor
  · intro h
    have hascription : b.ascription.map (m.atSite (site b.accessor)) = c.ascription := by
      by_cases hblock : b.accessor = some .computed
      · rw [hcomputed hblock, h.computed hblock]
      · rw [hstored hblock, h.stored hblock]
    unfold Binding.mapSites
    rw [hascription, ← h.pattern, ← h.initializer, ← h.accessor]
  · rintro rfl
    exact ⟨rfl, rfl, rfl, hcomputed, hstored⟩

theorem qualifiesVariable_iff (d e : VariableDecl) :
    m.QualifiesVariable d e ↔ d.mapSites m.atSite site = e := by
  constructor
  · intro h
    have hbindings := (forall₂_iff_map (qualifiesBinding_iff site hsite) _ _).mp h.bindings
    unfold VariableDecl.mapSites
    rw [hbindings, ← h.isLet, ← h.span]
  · rintro rfl
    exact ⟨rfl, rfl, (forall₂_iff_map (qualifiesBinding_iff site hsite) _ _).mpr rfl⟩

end Variables

theorem qualifiesBody_iff (b c : CodeBlock) :
    m.QualifiesBody b c ↔ b.mapSites m.atSite = c := by
  have hlocal := qualifiesVariable_iff (m := m) .localVariable fun _ => rfl
  constructor
  · intro h
    have hlocals := (forall₂_iff_map hlocal _ _).mp h.locals
    unfold CodeBlock.mapSites
    rw [hlocals, ← h.span]
  · rintro rfl
    exact ⟨rfl, (forall₂_iff_map hlocal _ _).mpr rfl⟩

/-! ## Functions -/

theorem qualifiesParameter_iff (p q : Parameter) :
    m.QualifiesParameter p q ↔ p.mapSites m.atSite = q := by
  constructor
  · intro h
    have hascription : m.atSite p.site p.ascription = q.ascription := by
      by_cases hexistential : p.variadic = true ∨ p.IsShared
      · rw [atSite_of_keyword (keyword_existential hexistential), h.existential hexistential]
      · obtain ⟨hvariadic, hshared⟩ := not_or.mp hexistential
        rw [Bool.not_eq_true] at hvariadic
        rw [atSite_of_keyword (keyword_preferred hvariadic hshared),
          h.preferred hvariadic hshared]
    unfold Parameter.mapSites
    rw [hascription, ← h.names, ← h.variadic, ← h.default]
  · rintro rfl
    refine ⟨rfl, rfl, rfl, fun hexistential => ?_, fun hvariadic hshared => ?_⟩
    · exact congrFun (atSite_of_keyword (keyword_existential hexistential)) p.ascription
    · exact congrFun (atSite_of_keyword (keyword_preferred hvariadic hshared)) p.ascription

theorem qualifiesFunction_iff {outer : Option Declaration} {inProtocol : Bool}
    (houter : inProtocol = true ↔ Declaration.IsProtocol outer) (d e : FunctionDecl) :
    m.QualifiesFunction outer d e ↔ d.mapSites m.atSite inProtocol = e := by
  have hrequirement : Declaration.IsProtocol outer →
      d.result.map (m.atSite (.result inProtocol)) = d.result.map (m.requalified .any) := by
    intro hin
    have hkey : m.keyword (.result inProtocol) = some .any := if_pos (houter.mpr hin)
    rw [atSite_of_keyword hkey]
  have hresult : ¬Declaration.IsProtocol outer →
      d.result.map (m.atSite (.result inProtocol)) =
        d.result.map (m.requalified m.policy.preferred) := by
    intro hout
    have hkey : m.keyword (.result inProtocol) = some m.policy.preferred :=
      if_neg (mt houter.mp hout)
    rw [atSite_of_keyword hkey]
  constructor
  · intro h
    have hparameters := (forall₂_iff_map qualifiesParameter_iff _ _).mp h.parameters
    have hbody := (rel_iff_map qualifiesBody_iff _ _).mp h.body
    have hnew : d.result.map (m.atSite (.result inProtocol)) = e.result := by
      by_cases hin : Declaration.IsProtocol outer
      · rw [hrequirement hin, h.requirement hin]
      · rw [hresult hin, h.result hin]
    unfold FunctionDecl.mapSites
    rw [hparameters, hbody, hnew, ← h.name, ← h.span]
  · rintro rfl
    exact ⟨rfl, rfl, (forall₂_iff_map qualifiesParameter_iff _ _).mpr rfl, hrequirement,
      hresult, (rel_iff_map qualifiesBody_iff _ _).mpr rfl⟩

theorem qualifiesInitializer_iff (d e : InitializerDecl) :
    m.QualifiesInitializer d e ↔ d.mapSites m.atSite = e := by
  constructor
  · intro h
    have hparameters := (forall₂_iff_map qualifiesParameter_iff _ _).mp h.parameters
    have hbody := (rel_iff_map qualifiesBody_iff _ _).mp h.body
    unfold InitializerDecl.mapSites
    rw [hparameters, hbody, ← h.span]
  · rintro rfl
    exact ⟨rfl, (forall₂_iff_map qualifiesParameter_iff _ _).mpr rfl,
      (rel_iff_map qualifiesBody_iff _ _).mpr rfl⟩

theorem qualifiesAlias_iff (d e : AliasDecl) :
    m.QualifiesAlias d e ↔ d.mapSites m.atSite = e := by
  constructor
  · rintro ⟨hname, hspan, htarget⟩
    unfold AliasDecl.mapSites
    rw [atSite_of_keyword rfl, ← htarget, ← hname, ← hspan]
  · rintro rfl
    exact ⟨rfl, rfl, rfl⟩

/-! ## Declarations -/

theorem isProtocol_protocol (name : String) (span : Span) (members : List Declaration) :
    Declaration.IsProtocol (some (.protocol name span members)) :=
  ⟨name, span, members, rfl⟩

theorem not_isProtocol_nominal (kind : NominalKind) (name : String) (span : Span)
    (members : List Declaration) :
    ¬Declaration.IsProtocol (some (.nominal kind name span members)) := by
  rintro ⟨_, _, _, h⟩
  cases h

theorem not_isProtocol_none : ¬Declaration.IsProtocol none := by
  rintro ⟨_, _, _, h⟩
  cases h

mutual
/-- What is made of a declaration. The flag of the walk tells whether `outer`
is a protocol. -/
theorem qualifies_iff (outer : Option Declaration) (inProtocol : Bool)
    (houter : inProtocol = true ↔ Declaration.IsProtocol outer) : (d e : Declaration) →
      (m.Qualifies outer d e ↔ d.mapSites m.atSite inProtocol = e)
  | .protocol name span members, e => by
    have hmembers := qualifiesList_iff _ true
      (iff_of_true rfl (isProtocol_protocol name span members)) members
    constructor
    · rintro (h | _)
      exact congrArg (Declaration.protocol name span) ((hmembers _).mp h)
    · rintro rfl
      exact .protocol ((hmembers _).mpr rfl)
  | .nominal kind name span members, e => by
    have hmembers := qualifiesList_iff _ false
      (iff_of_false Bool.false_ne_true (not_isProtocol_nominal kind name span members)) members
    constructor
    · rintro (_ | h)
      exact congrArg (Declaration.nominal kind name span) ((hmembers _).mp h)
    · rintro rfl
      exact .nominal ((hmembers _).mpr rfl)
  | .bindings d, e => by
    have hvariable := qualifiesVariable_iff (m := m) .property (fun _ => rfl) d
    constructor
    · rintro ⟨⟩
      exact congrArg Declaration.bindings ((hvariable _).mp ‹_›)
    · rintro rfl
      exact .bindings ((hvariable _).mpr rfl)
  | .function d, e => by
    constructor
    · rintro ⟨⟩
      exact congrArg Declaration.function ((qualifiesFunction_iff houter d _).mp ‹_›)
    · rintro rfl
      exact .function ((qualifiesFunction_iff houter d _).mpr rfl)
  | .initializer d, e => by
    constructor
    · rintro ⟨⟩
      exact congrArg Declaration.initializer ((qualifiesInitializer_iff d _).mp ‹_›)
    · rintro rfl
      exact .initializer ((qualifiesInitializer_iff d _).mpr rfl)
  | .typeAlias d, e => by
    constructor
    · rintro ⟨⟩
      exact congrArg Declaration.typeAlias ((qualifiesAlias_iff d _).mp ‹_›)
    · rintro rfl
      exact .typeAlias ((qualifiesAlias_iff d _).mpr rfl)

/-- What is made of declarations that follow each other. -/
theorem qualifiesList_iff (outer : Option Declaration) (inProtocol : Bool)
    (houter : inProtocol = true ↔ Declaration.IsProtocol outer) : (ds es : List Declaration) →
      (m.QualifiesList outer ds es ↔ Declaration.mapSitesList m.atSite inProtocol ds = es)
  | [], es => by
    constructor
    · rintro ⟨⟩
      rfl
    · rintro rfl
      exact .nil
  | d :: ds, es => by
    constructor
    · rintro (_ | ⟨hd, hds⟩)
      rw [Declaration.mapSitesList, (qualifies_iff outer inProtocol houter d _).mp hd,
        (qualifiesList_iff outer inProtocol houter ds _).mp hds]
    · rintro rfl
      exact .cons ((qualifies_iff outer inProtocol houter d _).mpr rfl)
        ((qualifiesList_iff outer inProtocol houter ds _).mpr rfl)
end

/-! ## Files -/

/-- The migrated file has the name and the text of the file, and declarations
in which nothing but the types of ascriptions is another: each is qualified
for its place, except that computed variables stay as they are. -/
theorem file_eq_iff (m : Migration) (f g : SourceFile) :
    m.file f = g ↔
      g.name = f.name ∧ g.text = f.text ∧
        m.QualifiesList none f.declarations g.declarations := by
  have htop : false = true ↔ Declaration.IsProtocol none :=
    iff_of_false Bool.false_ne_true not_isProtocol_none
  rw [qualifiesList_iff none false htop, ← declarations_file]
  constructor
  · rintro rfl
    exact ⟨rfl, rfl, rfl⟩
  · rintro ⟨hname, htext, hdeclarations⟩
    cases g
    cases hname
    cases htext
    cases hdeclarations
    rfl

end Migration

end AnySome
