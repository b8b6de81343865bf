import AnySome.Proofs.Migration.Placement
import AnySome.Proofs.Rewrite.Lossless

/-!
# What a conservative migration adds

A conservative migration takes nothing away. Into a type it writes qualifiers in
front of interfaces, where it has met no qualifier on the way down, and
parentheses around what is qualified now or has been below an optional; a
qualified type it leaves as it is. The relation `TypeExpr.Extends` says so
layer by layer, without the order in which the migration goes about it.

So the way down to a qualifier that was written is still there afterwards, and
on it stand new qualifiers and new parentheses at most. This holds of every
qualifier, not of the outermost ones alone: the others are inside a type that is
not touched. Nor do two qualifiers become one, since their places, which the new
steps do not change, tell equal types apart.

## Main results

* `TypeExpr.extends_requalify` — what conservative qualifying adds.
* `TypeExpr.Reaches.unique` — a type stands at most once at one place.
* `TypeExpr.Extends.exists_path` — the way to a written qualifier afterwards.
* `Migration.conservative_only_adds` — both, for types and for whole files.
-/

namespace AnySome

namespace TypeExpr

/-! ## Types with more qualifiers -/

mutual
/-- The second type is the first with a qualifier in front of some interfaces
that stand inside no qualified type, and with parentheses around some qualified
payloads. -/
inductive Extends (rules : Rules) : TypeExpr → TypeExpr → Prop where
  | named (name : String) : Extends rules (.named name) (.named name)
  | verbatim (text : String) : Extends rules (.verbatim text) (.verbatim text)
  | qualified (q : Qualifier) (t : TypeExpr) : Extends rules (.qualified q t) (.qualified q t)
  /-- An interface gets a qualifier. -/
  | interface {t : TypeExpr} (q : Qualifier) : t.isInterface rules = true →
      Extends rules t (.qualified q t)
  | generic {base : String} {ts us : List TypeExpr} : ExtendsList rules ts us →
      Extends rules (.generic base ts) (.generic base us)
  | optional {t u : TypeExpr} : Extends rules t u → Extends rules (.optional t) (.optional u)
  /-- A qualified payload gets parentheses. -/
  | enclosed {t u : TypeExpr} : Extends rules t u → u.isQualified = true →
      Extends rules (.optional t) (.optional u.parenthesized)
  | tuple {es fs : List (Element TypeExpr)} : ExtendsElements rules es fs →
      Extends rules (.tuple es) (.tuple fs)
  | function {es fs : List (Element TypeExpr)} {effects : Option String} {t u : TypeExpr} :
      ExtendsElements rules es fs → Extends rules t u →
      Extends rules (.function es effects t) (.function fs effects u)
  | attributed {ss : List String} {t u : TypeExpr} : Extends rules t u →
      Extends rules (.attributed ss t) (.attributed ss u)

/-- The same for lists of types. -/
inductive ExtendsList (rules : Rules) : List TypeExpr → List TypeExpr → Prop where
  | nil : ExtendsList rules [] []
  | cons {t u : TypeExpr} {ts us : List TypeExpr} : Extends rules t u →
      ExtendsList rules ts us → ExtendsList rules (t :: ts) (u :: us)

/-- The same for lists of elements, with the same labels and dots. -/
inductive ExtendsElements (rules : Rules) :
    List (Element TypeExpr) → List (Element TypeExpr) → Prop where
  | nil : ExtendsElements rules [] []
  | cons {label : Option String} {variadic : Bool} {t u : TypeExpr}
      {es fs : List (Element TypeExpr)} : Extends rules t u → ExtendsElements rules es fs →
      ExtendsElements rules (⟨label, t, variadic⟩ :: es) (⟨label, u, variadic⟩ :: fs)
end

section Qualifying

variable {rules : Rules}

theorem Extends.optionalOf {t u : TypeExpr} (h : Extends rules t u) :
    Extends rules (.optional t) (optionalOf u) := by
  unfold TypeExpr.optionalOf
  split
  next hqualified => exact .enclosed h hqualified
  next => exact .optional h

mutual
/-- A conservative pass adds qualifiers and parentheses, and nothing else. -/
theorem extends_requalify (hrules : rules.conservative = true) (k : Qualifier) :
    (t : TypeExpr) → Extends rules t (t.requalify rules k)
  | .named name => by
    rw [requalify]
    split
    next haccepted => exact .interface k haccepted
    next => exact .named name
  | .generic base arguments => by
    rw [requalify]
    split
    next haccepted => exact .interface k haccepted
    next => exact .generic (extends_requalifyList hrules arguments)
  | .optional payload => by
    rw [requalify]
    exact (extends_requalify hrules .any payload).optionalOf
  | .tuple elements => by
    rw [requalify]
    exact .tuple (extends_requalifyElements hrules elements)
  | .function parameters effects result => by
    rw [requalify]
    exact .function (extends_requalifyElements hrules parameters)
      (extends_requalify hrules .any result)
  | .qualified q inner => by
    rw [requalify, if_pos hrules]
    exact .qualified q inner
  | .attributed specifiers inner => by
    rw [requalify]
    exact .attributed (extends_requalify hrules k inner)
  | .verbatim text => by
    rw [requalify]
    exact .verbatim text

theorem extends_requalifyList (hrules : rules.conservative = true) :
    (ts : List TypeExpr) → ExtendsList rules ts (requalifyList rules ts)
  | [] => .nil
  | t :: ts => by
    rw [requalifyList]
    exact .cons (extends_requalify hrules .any t) (extends_requalifyList hrules ts)

theorem extends_requalifyElements (hrules : rules.conservative = true) :
    (es : List (Element TypeExpr)) → ExtendsElements rules es (requalifyElements rules es)
  | [] => .nil
  | ⟨_, t, _⟩ :: es => by
    rw [requalifyElements]
    exact .cons (extends_requalify hrules .any t) (extends_requalifyElements hrules es)
end

end Qualifying

mutual
/-- A type that is left as it is gains nothing. -/
theorem Extends.refl (rules : Rules) : (t : TypeExpr) → Extends rules t t
  | .named name => .named name
  | .verbatim text => .verbatim text
  | .generic _ arguments => .generic (ExtendsList.refl rules arguments)
  | .optional payload => .optional (Extends.refl rules payload)
  | .tuple elements => .tuple (ExtendsElements.refl rules elements)
  | .function parameters _ result =>
    .function (ExtendsElements.refl rules parameters) (Extends.refl rules result)
  | .qualified q inner => .qualified q inner
  | .attributed _ inner => .attributed (Extends.refl rules inner)

theorem ExtendsList.refl (rules : Rules) : (ts : List TypeExpr) → ExtendsList rules ts ts
  | [] => .nil
  | t :: ts => .cons (Extends.refl rules t) (ExtendsList.refl rules ts)

theorem ExtendsElements.refl (rules : Rules) :
    (es : List (Element TypeExpr)) → ExtendsElements rules es es
  | [] => .nil
  | ⟨_, t, _⟩ :: es => .cons (Extends.refl rules t) (ExtendsElements.refl rules es)
end

/-! ## Paths to the types inside a type -/

/-- The path leads from the first type to the second. -/
inductive Reaches : TypeExpr → List Step → TypeExpr → Prop where
  | here {t : TypeExpr} : Reaches t [] t
  | down {t u v : TypeExpr} {s : Step} {p : List Step} : Down t s u → Reaches u p v →
      Reaches t (s :: p) v

theorem Down.sizeOf_lt {t u : TypeExpr} {s : Step} (h : Down t s u) : sizeOf u < sizeOf t := by
  have helement : ∀ {es : List (Element TypeExpr)} {i : Nat} {x : Element TypeExpr},
      es[i]? = some x → sizeOf x.type < sizeOf es := by
    rintro es i ⟨label, type, variadic⟩ hi
    have hx := List.sizeOf_lt_of_mem (List.mem_of_getElem? hi)
    rw [Element.mk.sizeOf_spec] at hx
    show sizeOf type < sizeOf es
    omega
  cases h with
  | argument hi =>
    have ht := List.sizeOf_lt_of_mem (List.mem_of_getElem? hi)
    rw [generic.sizeOf_spec]
    omega
  | element _ hi =>
    have hx := helement hi
    rw [tuple.sizeOf_spec]
    omega
  | parameter hi =>
    have hx := helement hi
    rw [function.sizeOf_spec]
    omega
  | parentheses =>
    simp only [parenthesized, tuple.sizeOf_spec, List.cons.sizeOf_spec, Element.mk.sizeOf_spec]
    omega
  | payload | result | qualifier | specifiers =>
    simp only [optional.sizeOf_spec, function.sizeOf_spec, qualified.sizeOf_spec,
      attributed.sizeOf_spec]
    omega

theorem Reaches.sizeOf_le {t v : TypeExpr} {p : List Step} (h : Reaches t p v) :
    sizeOf v ≤ sizeOf t := by
  induction h with
  | here => exact Nat.le_refl _
  | down hstep _ ih =>
    have hlt := hstep.sizeOf_lt
    omega

/-- A type stands at most once at one place. -/
theorem Reaches.unique {t v : TypeExpr} {p q : List Step} (h : Reaches t p v)
    (h' : Reaches t q v) (hplace : place q = place p) : q = p := by
  induction h generalizing q with
  | @here t =>
    cases h' with
    | here => rfl
    | down hstep hrest =>
      -- A part of a type is smaller than the type.
      have hlt := hstep.sizeOf_lt
      have hle := hrest.sizeOf_le
      omega
  | @down t u v s p hstep hrest ih =>
    cases h' with
    | here =>
      have hlt := hstep.sizeOf_lt
      have hle := hrest.sizeOf_le
      omega
    | down hstep' hrest' =>
      obtain ⟨rfl, hq⟩ := hstep.of_place_eq hstep' hplace
      have hu := hstep.functional hstep'
      subst hu
      rw [ih hrest' hq]

/-! ## The way down to a qualifier -/

/-- The second path is the first with further steps, through qualifiers and
parentheses. -/
inductive Lengthens : List Step → List Step → Prop where
  | nil : Lengthens [] []
  | same {p p' : List Step} (s : Step) : Lengthens p p' → Lengthens (s :: p) (s :: p')
  | wrapped {p p' : List Step} {s : Step} : s.isWrapping = true → Lengthens p p' →
      Lengthens p (s :: p')

namespace Lengthens

variable {p p' : List Step}

theorem refl (p : List Step) : Lengthens p p := by
  induction p with
  | nil => exact .nil
  | cons s p ih => exact .same s ih

theorem place_eq (h : Lengthens p p') : place p' = place p := by
  unfold place
  induction h with
  | nil => rfl
  | same s _ ih => rw [List.filter_cons, List.filter_cons, ih]
  | wrapped hs _ ih => rw [List.filter_cons, hs, ih]; rfl

end Lengthens

/-- Every qualifier of the first type stands in the second where it was, in
front of the same type, and no two of them have become one. -/
def QualifiersStay (t u : TypeExpr) : Prop :=
  ∀ p q inner, Reaches t p (.qualified q inner) →
    ∃ p', Reaches u p' (.qualified q inner) ∧ Lengthens p p' ∧
      ∀ r, Reaches t r (.qualified q inner) → Lengthens r p' → r = p

section Paths

variable {rules : Rules} {t u v : TypeExpr} {p : List Step} {i : Nat}

theorem ExtendsList.exists_of_getElem? {ts us : List TypeExpr} (h : ExtendsList rules ts us)
    (hi : ts[i]? = some t) : ∃ u, us[i]? = some u ∧ Extends rules t u := by
  induction i generalizing ts us with
  | zero =>
    cases h with
    | nil => contradiction
    | cons hhead _ =>
      obtain rfl := Option.some.inj hi
      exact ⟨_, rfl, hhead⟩
  | succ i ih =>
    cases h with
    | nil => contradiction
    | cons _ htail => exact ih htail hi

theorem ExtendsElements.exists_of_getElem? {es fs : List (Element TypeExpr)}
    {x : Element TypeExpr} (h : ExtendsElements rules es fs) (hi : es[i]? = some x) :
    ∃ y, fs[i]? = some y ∧ Extends rules x.type y.type := by
  induction i generalizing es fs with
  | zero =>
    cases h with
    | nil => contradiction
    | cons hhead _ =>
      obtain rfl := Option.some.inj hi
      exact ⟨_, rfl, hhead⟩
  | succ i ih =>
    cases h with
    | nil => contradiction
    | cons _ htail => exact ih htail hi

theorem ExtendsElements.areTransparent_eq {es fs : List (Element TypeExpr)}
    (h : ExtendsElements rules es fs) : areTransparent fs = areTransparent es := by
  cases h with
  | nil => rfl
  | cons _ htail =>
    cases htail with
    | nil => rfl
    | cons => rfl

/-- The way to a qualified type in a type with more qualifiers. -/
theorem Extends.exists_path (hpath : Reaches t p v) (hv : v.isQualified = true)
    (h : Extends rules t u) : ∃ p', Reaches u p' v ∧ Lengthens p p' := by
  induction hpath generalizing u with
  | @here t =>
    -- Nothing is added at a qualifier.
    cases h with
    | qualified => exact ⟨[], .here, .nil⟩
    | @interface _ _ hinterface =>
      cases t with
      | qualified => contradiction
      | _ => contradiction
    | _ => contradiction
  | @down t w v s p hstep hrest ih =>
    have hpath : Reaches t (s :: p) v := .down hstep hrest
    cases h with
    | named | verbatim => cases hstep
    | qualified => exact ⟨s :: p, hpath, .refl _⟩
    | interface q =>
      exact ⟨.qualifier q :: s :: p, .down .qualifier hpath, .wrapped rfl (.refl _)⟩
    | generic hts =>
      cases hstep with
      | @argument _ _ i _ hi =>
        obtain ⟨u, hu, hextends⟩ := hts.exists_of_getElem? hi
        obtain ⟨p', hreaches, hlengthens⟩ := ih hv hextends
        exact ⟨.argument i :: p', .down (.argument hu) hreaches, .same _ hlengthens⟩
    | optional hpayload =>
      cases hstep with
      | payload =>
        obtain ⟨p', hreaches, hlengthens⟩ := ih hv hpayload
        exact ⟨.payload :: p', .down .payload hreaches, .same _ hlengthens⟩
    | enclosed hpayload _ =>
      cases hstep with
      | payload =>
        obtain ⟨p', hreaches, hlengthens⟩ := ih hv hpayload
        exact ⟨.payload :: .parentheses :: p', .down .payload (.down .parentheses hreaches),
          .same _ (.wrapped rfl hlengthens)⟩
    | tuple hes =>
      cases hstep with
      | parentheses =>
        obtain _ | ⟨hinner, hnil⟩ := hes
        cases hnil
        obtain ⟨p', hreaches, hlengthens⟩ := ih hv hinner
        exact ⟨.parentheses :: p', .down .parentheses hreaches, .same _ hlengthens⟩
      | @element _ i _ htransparent hi =>
        obtain ⟨y, hy, hextends⟩ := hes.exists_of_getElem? hi
        obtain ⟨p', hreaches, hlengthens⟩ := ih hv hextends
        rw [← hes.areTransparent_eq] at htransparent
        exact ⟨.element i :: p', .down (.element htransparent hy) hreaches, .same _ hlengthens⟩
    | function hes hresult =>
      cases hstep with
      | @parameter _ _ _ i _ hi =>
        obtain ⟨y, hy, hextends⟩ := hes.exists_of_getElem? hi
        obtain ⟨p', hreaches, hlengthens⟩ := ih hv hextends
        exact ⟨.parameter i :: p', .down (.parameter hy) hreaches, .same _ hlengthens⟩
      | result =>
        obtain ⟨p', hreaches, hlengthens⟩ := ih hv hresult
        exact ⟨.result :: p', .down .result hreaches, .same _ hlengthens⟩
    | attributed hinner =>
      cases hstep with
      | specifiers =>
        obtain ⟨p', hreaches, hlengthens⟩ := ih hv hinner
        exact ⟨.specifiers :: p', .down .specifiers hreaches, .same _ hlengthens⟩

theorem Extends.qualifiersStay (h : Extends rules t u) : QualifiersStay t u := by
  intro p q inner hpath
  obtain ⟨p', hreaches, hlengthens⟩ := h.exists_path hpath rfl
  refine ⟨p', hreaches, hlengthens, fun r hr hsame => ?_⟩
  exact hpath.unique hr (hsame.place_eq.symm.trans hlengthens.place_eq)

end Paths

end TypeExpr

/-! ## Conservative migrations -/

namespace Migration

open SourceFile

variable {m : Migration}

theorem extends_atSite (hm : m.policy.conservative = true) (s : Site) (a : Ascription) :
    TypeExpr.Extends m.rules a.type (m.atSite s a).type := by
  unfold atSite
  cases m.keyword s with
  | none => exact .refl m.rules a.type
  | some k => exact TypeExpr.extends_requalify hm k a.type

/-- A conservative migration adds to a type nothing but qualifiers in front of
interfaces outside of qualified types, and parentheses around qualified
payloads. Every qualifier of a type stays where it was, in front of what it was,
and so does every qualifier that was written in an accepted file. -/
theorem conservative_only_adds (hm : m.policy.conservative = true) :
    (∀ k t, TypeExpr.Extends m.rules t (t.requalify m.rules k) ∧
        TypeExpr.QualifiersStay t (t.requalify m.rules k)) ∧
      ∀ name text file, parse name text = .ok file →
        (Declaration.ascriptionsList (m.file file).declarations).map Ascription.asRead =
            Declaration.ascriptionsList file.declarations ∧
          ∀ a ∈ Declaration.ascriptionsList (m.file file).declarations,
            TypeExpr.Extends m.rules a.parsed a.type ∧
              TypeExpr.QualifiersStay a.parsed a.type := by
  constructor
  · intro k t
    have hextends : TypeExpr.Extends m.rules t (t.requalify m.rules k) :=
      TypeExpr.extends_requalify hm k t
    exact ⟨hextends, hextends.qualifiersStay⟩
  · intro name text file hparse
    refine ⟨map_asRead_ascriptionsList_file hparse m, fun a ha => ?_⟩
    obtain ⟨x, _, rfl, htype⟩ := exists_atSite_of_mem hparse m ha
    have hextends := extends_atSite hm x.1 x.2
    rw [htype] at hextends
    exact ⟨hextends, hextends.qualifiersStay⟩

/-- A parameter whose type has qualifiers and interfaces in one tuple and in the
arguments of an interface: each type gains what it lacks. -/
theorem conservative_only_adds_of_parameters :
    let text := "func f(_ a: (some P, P?, Q<any P>)?, b: any P?) {}"
    let file : SourceFile := ⟨"f", text, (run text).1⟩
    let m : Migration := ⟨fun n => n == "P" || n == "Q", ⟨.strict, true⟩⟩
    m.policy.conservative = true ∧ parse "f" text = .ok file ∧
      (m.file file).render =
        "func f(_ a: (some P, (any P)?, any Q<any P>)?, b: any P?) {}" ∧
      ∀ a ∈ Declaration.ascriptionsList (m.file file).declarations,
        TypeExpr.QualifiersStay a.parsed a.type := by
  intro text file m
  have hparse : parse "f" text = .ok file := parse_eq_ok_iff.mpr ⟨by decide +kernel, rfl⟩
  refine ⟨rfl, hparse, by rw [render_migrated hparse m]; decide +kernel, fun a ha => ?_⟩
  exact (((conservative_only_adds rfl).2 "f" text file hparse).2 a ha).2

end Migration

end AnySome
