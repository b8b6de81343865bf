import AnySome.Migration.Requalify

/-!
# Where qualifying puts qualifiers

Names stand at the ends of paths through a type. A path is a list of steps, one
for each layer that it goes through, and qualifying visits the names whose
paths do not go into the arguments of a generic interface.

Qualifying adds and removes qualifiers and adds parentheses, so the path to a
name changes. What stays is its *place*: the steps of the path that go neither
through a qualifier nor through parentheses. No two visited names of a type have
the same place, since a qualifier and a pair of parentheses hold one type each.

At each place the old and the new path can be compared. An interface gets a
qualifier directly in front of it, which is the one asked for if nothing but
specifiers and qualifiers stood in front of it, and `any` otherwise. Every other
name keeps what is directly around it, and with that its qualifier or the lack
of one.

## Main results

* `TypeExpr.Visits.unique` — a place determines the name that stands there.
* `TypeExpr.Visits.exists_path` — the path to each name in the new type.
* `TypeExpr.qualifiers_at_places` — what stands at each place of the new type.
-/

namespace AnySome.TypeExpr

/-! ## Paths -/

/-- A step from a type to a type directly inside it. -/
inductive Step where
  | argument (index : Nat)
  | payload
  /-- To the only type between parentheses. -/
  | parentheses
  | element (index : Nat)
  | parameter (index : Nat)
  | result
  | qualifier (q : Qualifier)
  | specifiers
deriving DecidableEq, Repr

namespace Step

/-- The step keeps at the top of the type, where `some` is legal. -/
def staysOutside : Step → Bool
  | .qualifier _ | .specifiers => true
  | _ => false

/-- The step goes through a layer that holds one type and that qualifying may
add or remove. -/
def isWrapping : Step → Bool
  | .qualifier _ | .parentheses => true
  | _ => false

/-- The qualifier that the step goes through. -/
def qualifier? : Step → Option Qualifier
  | .qualifier q => some q
  | _ => none

end Step

/-- The elements are those of parentheses around a single type. -/
def areTransparent : List (Element TypeExpr) → Bool
  | [x] => x.label.isNone && !x.variadic
  | _ => false

theorem exists_of_areTransparent {es : List (Element TypeExpr)} (h : areTransparent es = true) :
    ∃ t, es = [⟨none, t, false⟩] := by
  match es with
  | [⟨none, t, false⟩] => exact ⟨t, rfl⟩
  | [] | [⟨some _, _, _⟩] | [⟨none, _, true⟩] | _ :: _ :: _ => contradiction

/-- The step leads from the first type to the second. -/
inductive Down : TypeExpr → Step → TypeExpr → Prop where
  | argument {base : String} {ts : List TypeExpr} {i : Nat} {t : TypeExpr} :
      ts[i]? = some t → Down (.generic base ts) (.argument i) t
  | payload {t : TypeExpr} : Down (.optional t) .payload t
  | parentheses {t : TypeExpr} : Down t.parenthesized .parentheses t
  | element {es : List (Element TypeExpr)} {i : Nat} {x : Element TypeExpr} :
      areTransparent es = false → es[i]? = some x → Down (.tuple es) (.element i) x.type
  | parameter {es : List (Element TypeExpr)} {effects : Option String} {r : TypeExpr} {i : Nat}
      {x : Element TypeExpr} : es[i]? = some x → Down (.function es effects r) (.parameter i) x.type
  | result {es : List (Element TypeExpr)} {effects : Option String} {r : TypeExpr} :
      Down (.function es effects r) .result r
  | qualifier {q : Qualifier} {t : TypeExpr} : Down (.qualified q t) (.qualifier q) t
  | specifiers {ss : List String} {t : TypeExpr} : Down (.attributed ss t) .specifiers t

/-- The name of a bare or generic type. -/
def headName? : TypeExpr → Option String
  | .named name => some name
  | .generic base _ => some base
  | _ => none

/-- The type is a bare or generic interface. -/
def isInterface (rules : Rules) (t : TypeExpr) : Bool := t.headName?.any rules.accepts

/-- The path leads from the first type to the second, a bare or generic type,
and not into the arguments of a generic interface. -/
inductive Visits (rules : Rules) : TypeExpr → List Step → TypeExpr → Prop where
  | here {t : TypeExpr} : t.headName?.isSome = true → Visits rules t [] t
  | down {t u v : TypeExpr} {s : Step} {p : List Step} : t.isInterface rules = false →
      Down t s u → Visits rules u p v → Visits rules t (s :: p) v

/-- The place to which a path leads. -/
def place (p : List Step) : List Step := p.filter fun s => !s.isWrapping

/-- The qualifier that is closest to the end of a path. -/
def innermost : List Step → Option Qualifier
  | [] => none
  | s :: p => (innermost p).or s.qualifier?

/-! ## Places -/

variable {rules : Rules} {k : Qualifier} {t u v w : TypeExpr} {s : Step} {p q p' : List Step}

theorem Down.functional (h : Down t s u) (h' : Down t s v) : u = v := by
  cases h with
  | argument hi =>
    cases h' with
    | argument hi' => exact Option.some.inj (hi.symm.trans hi')
  | element _ hi =>
    cases h' with
    | element _ hi' => rw [Option.some.inj (hi.symm.trans hi')]
  | parameter hi =>
    cases h' with
    | parameter hi' => rw [Option.some.inj (hi.symm.trans hi')]
  | payload | parentheses | result | qualifier | specifiers =>
    cases h'
    rfl

/-- Where a layer can be added or removed, there is one way to go. -/
theorem Down.step_eq {s' : Step} (h : Down t s u) (hs : s.isWrapping = true)
    (h' : Down t s' v) : s' = s := by
  cases h with
  | qualifier =>
    cases h'
    rfl
  | parentheses =>
    cases h' with
    | parentheses => rfl
    | element htransparent _ => contradiction
  | argument | payload | element | parameter | result | specifiers => contradiction

/-- Two paths to one place begin with the same step. -/
theorem Down.of_place_eq {s' : Step} (h : Down t s u) (h' : Down t s' v)
    (hplace : place (s' :: q) = place (s :: p)) : s' = s ∧ place q = place p := by
  by_cases hs : s.isWrapping = true
  · have heq := h.step_eq hs h'
    subst heq
    simpa [place, hs] using hplace
  · by_cases hs' : s'.isWrapping = true
    · rw [h'.step_eq hs' h] at hs
      contradiction
    · simpa [place, hs, hs'] using hplace

/-- Below a name there is no way on, but into arguments. -/
theorem Down.place_ne_nil (h : Down t s u) (ht : t.headName?.isSome = true) :
    place (s :: p) ≠ [] := by
  cases h with
  | argument => exact List.cons_ne_nil _ _
  | _ => contradiction

theorem Visits.isSome_headName? (h : Visits rules t p v) : v.headName?.isSome = true := by
  induction h with
  | here ht => exact ht
  | down _ _ _ ih => exact ih

/-- No two names stand at the same place. -/
theorem Visits.unique (h : Visits rules t p v) (h' : Visits rules t q w)
    (hplace : place q = place p) : q = p ∧ w = v := by
  induction h generalizing q with
  | here ht =>
    cases h' with
    | here => exact ⟨rfl, rfl⟩
    | down _ hstep _ => exact absurd hplace (hstep.place_ne_nil ht)
  | @down t u v s p _ hstep _ ih =>
    cases h' with
    | here ht => exact absurd hplace.symm (hstep.place_ne_nil ht)
    | @down _ u' _ s' q _ hstep' hrest =>
      obtain ⟨rfl, hq⟩ := hstep.of_place_eq hstep' hplace
      have hu := hstep.functional hstep'
      subst hu
      obtain ⟨rfl, rfl⟩ := ih hrest hq
      exact ⟨rfl, rfl⟩

/-! ## Paths in the new type -/

/-- What has become of a name at its place: an interface is as it was, with its
arguments, and the arguments of another type are qualified. -/
def renewed (rules : Rules) (v : TypeExpr) : TypeExpr :=
  if v.isInterface rules then v else v.requalify rules .any

/-- The second path leads in a qualified type to where the first has led before:
`k` is the qualifier asked for, and `v` the type at the end of the first path. -/
structure Reroutes (rules : Rules) (k : Qualifier) (v : TypeExpr) (p p' : List Step) : Prop where
  place_eq : place p' = place p
  accepted : v.isInterface rules = true →
    p'.getLast? = some (.qualifier (if p.all Step.staysOutside then k else .any))
  rejected : v.isInterface rules = false → p'.getLast? = p.getLast? ∧ innermost p' = innermost p

theorem getLast?_cons_congr (s : Step) (h : p'.getLast? = p.getLast?) :
    (s :: p').getLast? = (s :: p).getLast? := by
  rw [List.getLast?_cons, List.getLast?_cons, h]

namespace Reroutes

/-- A step that stays what it is, and behind which `any` is asked for. -/
theorem nested (h : Reroutes rules .any v p p') (hs : s.staysOutside = false) :
    Reroutes rules k v (s :: p) (s :: p') := by
  refine ⟨?_, fun hv => ?_, fun hv => ?_⟩
  · have hplace := h.place_eq
    unfold place at hplace ⊢
    rw [List.filter_cons, List.filter_cons, hplace]
  · rw [List.getLast?_cons, h.accepted hv, ite_self, List.all_cons, hs, Bool.false_and]
    rfl
  · obtain ⟨hlast, hinner⟩ := h.rejected hv
    exact ⟨getLast?_cons_congr s hlast, by rw [innermost, innermost, hinner]⟩

/-- A step that stays what it is, and behind which the same is asked for. -/
theorem outside (h : Reroutes rules k v p p') (hs : s.staysOutside = true) :
    Reroutes rules k v (s :: p) (s :: p') := by
  refine ⟨?_, fun hv => ?_, fun hv => ?_⟩
  · have hplace := h.place_eq
    unfold place at hplace ⊢
    rw [List.filter_cons, List.filter_cons, hplace]
  · rw [List.getLast?_cons, h.accepted hv, List.all_cons, hs, Bool.true_and]
    rfl
  · obtain ⟨hlast, hinner⟩ := h.rejected hv
    exact ⟨getLast?_cons_congr s hlast, by rw [innermost, innermost, hinner]⟩

/-- New parentheses around a type that has a qualifier in front. -/
theorem parenthesized (h : Reroutes rules k v p p') (hne : p' ≠ []) :
    Reroutes rules k v p (.parentheses :: p') := by
  have hlast : (Step.parentheses :: p').getLast? = p'.getLast? := by
    obtain ⟨s, p', rfl⟩ := List.exists_cons_of_ne_nil hne
    exact List.getLast?_cons_cons
  refine ⟨h.place_eq, fun hv => hlast.trans (h.accepted hv), fun hv => ?_⟩
  obtain ⟨hold, hinner⟩ := h.rejected hv
  exact ⟨hlast.trans hold, by rw [innermost, ← hinner]; exact Option.or_none⟩

/-- A qualifier that is no longer there, since another one is closer. -/
theorem dropped (h : Reroutes rules k v p p') (hinner : (innermost p').isSome = true)
    (q : Qualifier) : Reroutes rules k v (.qualifier q :: p) p' := by
  refine ⟨h.place_eq, fun hv => ?_, fun hv => ?_⟩
  · rw [h.accepted hv]
    rfl
  · obtain ⟨hlast, hsame⟩ := h.rejected hv
    rw [hsame] at hinner
    have hne : p ≠ [] := by
      rintro rfl
      contradiction
    refine ⟨?_, ?_⟩
    · obtain ⟨s, p, rfl⟩ := List.exists_cons_of_ne_nil hne
      rw [hlast]
      exact List.getLast?_cons_cons.symm
    · rw [hsame, innermost, Option.or_of_isSome hinner]

end Reroutes

/-! ## Qualifying step by step -/

theorem getElem?_requalifyList (rules : Rules) (ts : List TypeExpr) (i : Nat) :
    (requalifyList rules ts)[i]? = ts[i]?.map (requalify rules .any) := by
  induction ts generalizing i with
  | nil => rfl
  | cons t ts ih =>
    rw [requalifyList]
    cases i with
    | zero => rfl
    | succ i => exact ih i

theorem getElem?_requalifyElements (rules : Rules) (es : List (Element TypeExpr)) (i : Nat) :
    (requalifyElements rules es)[i]? =
      es[i]?.map fun x => ⟨x.label, requalify rules .any x.type, x.variadic⟩ := by
  induction es generalizing i with
  | nil => rfl
  | cons x es ih =>
    rw [requalifyElements]
    cases i with
    | zero => rfl
    | succ i => exact ih i

theorem areTransparent_requalifyElements (rules : Rules) (es : List (Element TypeExpr)) :
    areTransparent (requalifyElements rules es) = areTransparent es := by
  match es with
  | [] | [_] | _ :: _ :: _ => rfl

/-- An interface gets the qualifier that is asked for, and any other name keeps
its head, whatever is asked for. -/
theorem requalify_of_isSome_headName? (rules : Rules) (k : Qualifier)
    (ht : t.headName?.isSome = true) :
    (t.isInterface rules = true → t.requalify rules k = .qualified k t) ∧
      (t.isInterface rules = false → t.requalify rules k = t.requalify rules .any ∧
        (t.requalify rules .any).headName? = t.headName?) := by
  cases t with
  | named name =>
    rw [requalify, requalify]
    refine ⟨fun h => if_pos h, fun h => ?_⟩
    have haccepts : ¬rules.accepts name = true := ne_true_of_eq_false h
    rw [if_neg haccepts, if_neg haccepts]
    exact ⟨rfl, rfl⟩
  | generic base ts =>
    rw [requalify, requalify]
    refine ⟨fun h => if_pos h, fun h => ?_⟩
    have haccepts : ¬rules.accepts base = true := ne_true_of_eq_false h
    rw [if_neg haccepts, if_neg haccepts]
    exact ⟨rfl, rfl⟩
  | _ => contradiction

/-- Every way into a type with a qualifier in front goes through one. -/
theorem Visits.isSome_innermost (h : Visits rules t p v) (ht : t.hasLeadingQualifier = true) :
    (innermost p).isSome = true := by
  induction h with
  | @here t hname =>
    cases t with
    | named | generic => contradiction
    | _ => contradiction
  | @down t u v s p _ hstep _ ih =>
    cases hstep with
    | payload => simpa [innermost, Step.qualifier?] using ih ht
    | parentheses => simpa [innermost, Step.qualifier?] using ih ht
    | qualifier => simp [innermost, Step.qualifier?]
    | element htransparent _ =>
      unfold hasLeadingQualifier at ht
      split at ht <;> simp_all [areTransparent]
    | argument | parameter | result | specifiers => contradiction

/-- A path that goes through a type with a qualifier in front is not empty. -/
theorem Visits.ne_nil (h : Visits rules t p v) (ht : t.isQualified = true) : p ≠ [] := by
  rintro rfl
  cases h with
  | here hname =>
    cases t with
    | qualified => contradiction
    | _ => contradiction

/-- The path to a name in the new type. -/
theorem Visits.exists_path (hrules : rules.conservative = false) (h : Visits rules t p v)
    (k : Qualifier) :
    ∃ p', Visits rules (t.requalify rules k) p' (renewed rules v) ∧ Reroutes rules k v p p' := by
  have hsame : ∀ {x : TypeExpr}, x.headName? = none → x.isInterface rules = false := by
    intro x hx
    unfold isInterface
    rw [hx]
    rfl
  induction h generalizing k with
  | @here t hname =>
    obtain ⟨haccepted, hrejected⟩ := requalify_of_isSome_headName? rules k hname
    unfold renewed
    by_cases ht : t.isInterface rules = true
    · rw [haccepted ht, if_pos ht]
      refine ⟨[.qualifier k], .down (hsame rfl) .qualifier (.here hname), rfl, fun _ => rfl, ?_⟩
      intro hv
      rw [ht] at hv
      contradiction
    · have hv : t.isInterface rules = false := by simpa using ht
      obtain ⟨hany, hhead⟩ := hrejected hv
      rw [hany, if_neg ht]
      exact ⟨[], .here (by rw [hhead]; exact hname), rfl, fun hv => absurd hv ht,
        fun _ => ⟨rfl, rfl⟩⟩
  | @down t u v s p hopen hstep _ ih =>
    cases hstep with
    | @argument base ts i _ hi =>
      obtain ⟨p', hvisits, hroute⟩ := ih .any
      have hbase : rules.accepts base = false := hopen
      have hnew : (Down (.generic base (requalifyList rules ts)) (.argument i)
          (u.requalify rules .any)) :=
        .argument (by rw [getElem?_requalifyList, hi]; rfl)
      refine ⟨.argument i :: p', ?_, hroute.nested rfl⟩
      rw [requalify, if_neg (by simp [hbase])]
      exact .down hopen hnew hvisits
    | payload =>
      obtain ⟨p', hvisits, hroute⟩ := ih .any
      rw [requalify]
      unfold optionalOf
      split
      next hqualified =>
        refine ⟨.payload :: .parentheses :: p',
          .down (hsame rfl) .payload (.down (hsame rfl) .parentheses hvisits), ?_⟩
        exact (hroute.parenthesized (hvisits.ne_nil hqualified)).nested rfl
      next =>
        exact ⟨.payload :: p', .down (hsame rfl) .payload hvisits, hroute.nested rfl⟩
    | parentheses =>
      obtain ⟨p', hvisits, hroute⟩ := ih .any
      exact ⟨.parentheses :: p', .down (hsame rfl) .parentheses hvisits, hroute.nested rfl⟩
    | @element es i x htransparent hi =>
      obtain ⟨p', hvisits, hroute⟩ := ih .any
      refine ⟨.element i :: p', ?_, hroute.nested rfl⟩
      rw [requalify]
      have hnew := getElem?_requalifyElements rules es i
      rw [hi] at hnew
      refine .down (hsame rfl) (.element ?_ hnew) hvisits
      rw [areTransparent_requalifyElements, htransparent]
    | @parameter es effects r i x hi =>
      obtain ⟨p', hvisits, hroute⟩ := ih .any
      refine ⟨.parameter i :: p', ?_, hroute.nested rfl⟩
      rw [requalify]
      have hnew := getElem?_requalifyElements rules es i
      rw [hi] at hnew
      exact .down (hsame rfl) (.parameter hnew) hvisits
    | result =>
      obtain ⟨p', hvisits, hroute⟩ := ih .any
      refine ⟨.result :: p', ?_, hroute.nested rfl⟩
      rw [requalify]
      exact .down (hsame rfl) .result hvisits
    | @qualifier q inner =>
      obtain ⟨p', hvisits, hroute⟩ := ih k
      rw [requalify, if_neg (by simp [hrules])]
      unfold keepQualifier
      split
      next hleading => exact ⟨p', hvisits, hroute.dropped (hvisits.isSome_innermost hleading) q⟩
      next =>
        exact ⟨.qualifier q :: p', .down (hsame rfl) .qualifier hvisits, hroute.outside rfl⟩
    | specifiers =>
      obtain ⟨p', hvisits, hroute⟩ := ih k
      rw [requalify]
      exact ⟨.specifiers :: p', .down (hsame rfl) .specifiers hvisits, hroute.outside rfl⟩

/-! ## The new type at its places -/

/-- What qualifying makes of the names of a type. Each name that is visited has
one path in the new type that leads to its place. If it is an interface, it and
its arguments are as they were, directly behind a qualifier: the one asked for,
or `any` if the old path goes through an optional, parentheses, an element, a
parameter, a result or an argument. If not, the last step to it is the old one,
and so is the qualifier closest to it. -/
theorem qualifiers_at_places (isInterface : String → Bool) (k : Qualifier) {t v : TypeExpr}
    {p : List Step} (h : Visits ⟨isInterface, false⟩ t p v) :
    let rules : Rules := ⟨isInterface, false⟩
    ∃ p' v', Visits rules (t.requalify rules k) p' v' ∧ place p' = place p ∧
      (∀ q w, Visits rules (t.requalify rules k) q w → place q = place p → q = p' ∧ w = v') ∧
      (v.isInterface rules = true → v' = v ∧
        p'.getLast? = some (.qualifier (if p.all Step.staysOutside then k else .any))) ∧
      (v.isInterface rules = false → v'.headName? = v.headName? ∧
        p'.getLast? = p.getLast? ∧ innermost p' = innermost p) := by
  intro rules
  obtain ⟨p', hvisits, hroute⟩ := h.exists_path rfl k
  refine ⟨p', renewed rules v, hvisits, hroute.place_eq, ?_, fun hv => ?_, fun hv => ?_⟩
  · intro q w hw hplace
    exact hvisits.unique hw (hplace.trans hroute.place_eq.symm)
  · exact ⟨if_pos hv, hroute.accepted hv⟩
  · have hname := (requalify_of_isSome_headName? rules .any h.isSome_headName?).2 hv
    refine ⟨?_, hroute.rejected hv⟩
    rw [renewed, if_neg (by simp [hv]), hname.2]

/-- A generic interface in backticks, below an optional and with a qualifier
already: it has `any` in the end, and its argument stays. -/
theorem qualifiers_at_places_of_parameter :
    let rules : Rules := ⟨fun n => n == "P", false⟩
    let v : TypeExpr := .generic "`P`" [.named "P"]
    let t : TypeExpr := .attributed ["@escaping"]
      (.function [⟨none, .optional (.parenthesized (.qualified .some v)), false⟩] none
        (.named "Void"))
    let p : List Step := [.specifiers, .parameter 0, .payload, .parentheses, .qualifier .some]
    Visits rules t p v ∧ ∃ p', Visits rules (t.requalify rules .some) p' v ∧
      place p' = [.specifiers, .parameter 0, .payload] ∧ p'.getLast? = some (.qualifier .any) := by
  intro rules v t p
  have h : Visits rules t p v :=
    .down rfl .specifiers (.down rfl (.parameter rfl) (.down rfl .payload
      (.down rfl .parentheses (.down rfl .qualifier (.here rfl)))))
  obtain ⟨p', v', hvisits, hplace, -, haccepted, -⟩ := qualifiers_at_places _ .some h
  obtain ⟨rfl, hlast⟩ := haccepted (by decide +kernel)
  exact ⟨h, p', hvisits, hplace, hlast⟩

end AnySome.TypeExpr
