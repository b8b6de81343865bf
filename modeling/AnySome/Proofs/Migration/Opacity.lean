import AnySome.Proofs.Migration.Sites
import AnySome.Proofs.Rewrite.Order

/-!
# Where `some` is written

`some` hides one fixed type. It is legal for a parameter or a result, at the
top of the type, and nowhere else: not below an optional, a tuple, a function
or a generic type, not for a variable, an alias, a variadic parameter, a
parameter whose default is read through a shared instance, or a requirement of
a protocol.

Qualifying a type carries the qualifier of its place down to the first shape
that is no specifier and no qualifier, and uses `any` from there on. So what a
migration adds are at most one `some` per type, at its top, and only where the
site of the type admits it.

## Main results

* `TypeExpr.opaqueCount_requalify_any` — with `any`, no `some` is added.
* `TypeExpr.opaqueCount_requalify` — with `some`, at most one is added, at the
  top.
* `Migration.some_only_where_admitted` — the whole of a file.
-/

namespace AnySome

/-! ## Counting `some` -/

/-- One for `some`, and none for `any`. -/
def Qualifier.opacity : Qualifier → Nat
  | .any => 0
  | .some => 1

theorem Qualifier.opacity_le_one (q : Qualifier) : q.opacity ≤ 1 := by
  cases q <;> decide

theorem Qualifier.eq_some_of_opacity {q : Qualifier} (h : q.opacity ≠ 0) : q = .some := by
  cases q with
  | any => exact absurd rfl h
  | some => rfl

namespace TypeExpr

mutual
/-- How often `some` qualifies a part of the type. -/
def opaqueCount : TypeExpr → Nat
  | .named _ => 0
  | .verbatim _ => 0
  | .generic _ arguments => opaqueCountList arguments
  | .optional t => opaqueCount t
  | .attributed _ t => opaqueCount t
  | .tuple elements => opaqueCountElements elements
  | .function parameters _ result => opaqueCountElements parameters + opaqueCount result
  | .qualified q t => q.opacity + opaqueCount t

/-- The same for a list of types. -/
def opaqueCountList : List TypeExpr → Nat
  | [] => 0
  | t :: ts => opaqueCount t + opaqueCountList ts

/-- The same for a list of elements. -/
def opaqueCountElements : List (Element TypeExpr) → Nat
  | [] => 0
  | ⟨_, t, _⟩ :: es => opaqueCount t + opaqueCountElements es
end

/-- How often `some` qualifies the type at its top: behind nothing but
specifiers and other qualifiers. -/
def leadingOpaqueCount : TypeExpr → Nat
  | .qualified q t => q.opacity + leadingOpaqueCount t
  | .attributed _ t => leadingOpaqueCount t
  | _ => 0

theorem leadingOpaqueCount_le (t : TypeExpr) : leadingOpaqueCount t ≤ opaqueCount t := by
  fun_induction leadingOpaqueCount t with
  | case1 q t ih => exact Nat.add_le_add_left ih _
  | case2 _ t ih => exact ih
  | case3 => exact Nat.zero_le _

/-! ## What qualifying adds -/

theorem opaqueCount_optionalOf (t : TypeExpr) : opaqueCount (optionalOf t) = opaqueCount t := by
  unfold optionalOf
  split <;> simp [opaqueCount, opaqueCountElements, parenthesized]

theorem leadingOpaqueCount_optionalOf (t : TypeExpr) : leadingOpaqueCount (optionalOf t) = 0 := by
  unfold optionalOf
  split <;> rfl

theorem opaqueCount_keepQualifier {q : Qualifier} (hq : q.opacity = 0) (t : TypeExpr) :
    opaqueCount (keepQualifier q t) = opaqueCount t := by
  unfold keepQualifier
  split
  · rfl
  · rw [opaqueCount, hq, Nat.zero_add]

theorem leadingOpaqueCount_keepQualifier {q : Qualifier} (hq : q.opacity = 0) (t : TypeExpr) :
    leadingOpaqueCount (keepQualifier q t) = leadingOpaqueCount t := by
  unfold keepQualifier
  split
  · rfl
  · rw [leadingOpaqueCount, hq, Nat.zero_add]

variable (rules : Rules)

mutual
/-- Inside a type no `some` is added. -/
theorem opaqueCount_requalify_any : (t : TypeExpr) → opaqueCount t = 0 →
    opaqueCount (requalify rules .any t) = 0
  | .named _, _ => by
    rw [requalify]
    split <;> rfl
  | .verbatim _, h => h
  | .generic _ arguments, h => by
    rw [requalify]
    split
    · simpa [opaqueCount, Qualifier.opacity] using h
    · exact opaqueCountList_requalify arguments h
  | .optional payload, h => by
    rw [requalify, opaqueCount_optionalOf]
    exact opaqueCount_requalify_any payload h
  | .tuple elements, h => opaqueCountElements_requalify elements h
  | .function parameters _ result, h => by
    obtain ⟨hparameters, hresult⟩ := Nat.add_eq_zero_iff.mp h
    rw [requalify, opaqueCount, opaqueCountElements_requalify parameters hparameters,
      opaqueCount_requalify_any result hresult]
  | .qualified q inner, h => by
    obtain ⟨hq, hinner⟩ := Nat.add_eq_zero_iff.mp h
    rw [requalify]
    split
    · exact h
    · rw [opaqueCount_keepQualifier hq]
      exact opaqueCount_requalify_any inner hinner
  | .attributed _ inner, h => opaqueCount_requalify_any inner h

theorem opaqueCountList_requalify : (ts : List TypeExpr) → opaqueCountList ts = 0 →
    opaqueCountList (requalifyList rules ts) = 0
  | [], _ => rfl
  | t :: ts, h => by
    obtain ⟨ht, hts⟩ := Nat.add_eq_zero_iff.mp h
    rw [requalifyList, opaqueCountList, opaqueCount_requalify_any t ht,
      opaqueCountList_requalify ts hts]

theorem opaqueCountElements_requalify : (es : List (Element TypeExpr)) →
    opaqueCountElements es = 0 → opaqueCountElements (requalifyElements rules es) = 0
  | [], _ => rfl
  | ⟨_, t, _⟩ :: es, h => by
    obtain ⟨ht, hes⟩ := Nat.add_eq_zero_iff.mp h
    rw [requalifyElements, opaqueCountElements, opaqueCount_requalify_any t ht,
      opaqueCountElements_requalify es hes]
end

/-- At the top of a type the qualifier of its place is added at most once, and
it stands in front of every shape that is no specifier and no qualifier. -/
theorem opaqueCount_requalify (k : Qualifier) : (t : TypeExpr) → opaqueCount t = 0 →
    opaqueCount (requalify rules k t) ≤ k.opacity ∧
      leadingOpaqueCount (requalify rules k t) = opaqueCount (requalify rules k t)
  | .named _, _ => by
    rw [requalify]
    split
    · exact ⟨Nat.le_refl _, rfl⟩
    · exact ⟨Nat.zero_le _, rfl⟩
  | .verbatim _, _ => ⟨Nat.zero_le _, rfl⟩
  | .generic base arguments, h => by
    rw [requalify]
    have harguments : opaqueCountList arguments = 0 := h
    split
    · simp [opaqueCount, leadingOpaqueCount, harguments]
    · rw [opaqueCount, opaqueCountList_requalify rules arguments harguments]
      exact ⟨Nat.zero_le _, rfl⟩
  | .optional payload, h => by
    rw [requalify, opaqueCount_optionalOf, leadingOpaqueCount_optionalOf,
      opaqueCount_requalify_any rules payload h]
    exact ⟨Nat.zero_le _, rfl⟩
  | .tuple elements, h => by
    rw [requalify, opaqueCount, opaqueCountElements_requalify rules elements h]
    exact ⟨Nat.zero_le _, rfl⟩
  | .function parameters effects result, h => by
    obtain ⟨hparameters, hresult⟩ := Nat.add_eq_zero_iff.mp h
    rw [requalify, opaqueCount, opaqueCountElements_requalify rules parameters hparameters,
      opaqueCount_requalify_any rules result hresult]
    exact ⟨Nat.zero_le _, rfl⟩
  | .qualified q inner, h => by
    obtain ⟨hq, hinner⟩ := Nat.add_eq_zero_iff.mp h
    rw [requalify]
    split
    · rw [opaqueCount, leadingOpaqueCount, hq, hinner]
      have hle := leadingOpaqueCount_le inner
      exact ⟨Nat.zero_le _, by omega⟩
    · rw [opaqueCount_keepQualifier hq, leadingOpaqueCount_keepQualifier hq]
      exact opaqueCount_requalify k inner hinner
  | .attributed _ inner, h => opaqueCount_requalify k inner h

end TypeExpr

/-! ## Where the sites admit it -/

/-- `some` is legal at the site: it is a parameter that is not variadic and
has no default read through a shared instance, or the result of a function
that is no requirement of a protocol. -/
def Site.AdmitsSome : Site → Prop
  | .parameter variadic default => variadic = false ∧
      ∀ text ∈ default, ¬∃ front back, text.toList = front ++ ".shared.".toList ++ back
  | .result inProtocol => inProtocol = false
  | .property _ | .localVariable _ | .aliasTarget => False

namespace Migration

variable {m : Migration}

theorem mode_of_preferred (h : some m.policy.preferred = some .some) :
    m.policy.mode = .strict := by
  have hresult : m.policy.qualifierFor .functionResult .absent = some .some := h
  exact Policy.mode_of_qualifierFor_some hresult

theorem not_shared_of_ofDefault {default : Option String}
    (h : DefaultShape.ofDefault default ≠ .shared) :
    ∀ text ∈ default, ¬∃ front back, text.toList = front ++ ".shared.".toList ++ back := by
  intro text htext hshared
  exact h ((DefaultShape.ofDefault_eq_shared_iff default).mpr ⟨text, htext, hshared⟩)

/-- `some` is chosen in strict mode only, and only where it is legal. -/
theorem admitsSome_of_keyword {s : Site} (h : m.keyword s = some .some) :
    m.policy.mode = .strict ∧ s.AdmitsSome := by
  cases s with
  | property accessor =>
    simp only [keyword] at h
    split at h <;> contradiction
  | localVariable accessor =>
    simp only [keyword] at h
    split at h <;> contradiction
  | parameter variadic default =>
    simp only [keyword] at h
    split at h
    · contradiction
    next hplain =>
      rw [not_or, Bool.not_eq_true] at hplain
      exact ⟨mode_of_preferred h, hplain.1, not_shared_of_ofDefault hplain.2⟩
  | result inProtocol =>
    simp only [keyword] at h
    split at h
    · contradiction
    next hfree =>
      rw [Bool.not_eq_true] at hfree
      exact ⟨mode_of_preferred h, hfree⟩
  | aliasTarget =>
    simp only [keyword] at h
    contradiction

/-- What a migration makes of one ascription without `some`. -/
theorem opaqueCount_atSite {s : Site} {a : Ascription} (ha : a.type.opaqueCount = 0) :
    (m.atSite s a).type.opaqueCount ≤ 1 ∧
      ((m.atSite s a).type.opaqueCount ≠ 0 → m.policy.mode = .strict ∧
        (m.atSite s a).type.leadingOpaqueCount = (m.atSite s a).type.opaqueCount ∧
        s.AdmitsSome) := by
  unfold atSite
  cases hkey : m.keyword s with
  | none =>
    rw [show m.ascription none a = a from rfl]
    exact ⟨by omega, fun h => absurd ha h⟩
  | some k =>
    obtain ⟨hle, hleading⟩ := TypeExpr.opaqueCount_requalify m.rules k a.type ha
    have hone := k.opacity_le_one
    rw [show (m.ascription (some k) a).type = a.type.requalify m.rules k from rfl]
    refine ⟨by omega, ?_⟩
    intro hne
    have hk : k = .some := Qualifier.eq_some_of_opacity (by omega)
    subst hk
    obtain ⟨hmode, hsite⟩ := admitsSome_of_keyword hkey
    exact ⟨hmode, hleading, hsite⟩

/-- In a migrated file every type in which no `some` was written holds at most
one. It holds one in strict mode only, at its top, and at a site that admits
it: a plain parameter, or a result outside of protocols. -/
theorem some_only_where_admitted {name text : String} {file : SourceFile}
    (hparse : SourceFile.parse name text = .ok file) (m : Migration) :
    Declaration.ascriptionsList (m.file file).declarations =
        (Declaration.sitesList false (m.file file).declarations).map Prod.snd ∧
      ∀ site a, (site, a) ∈ Declaration.sitesList false (m.file file).declarations →
        a.parsed.opaqueCount = 0 →
          a.type.opaqueCount ≤ 1 ∧
            (a.type.opaqueCount ≠ 0 → m.policy.mode = .strict ∧
              a.type.leadingOpaqueCount = a.type.opaqueCount ∧ site.AdmitsSome) := by
  refine ⟨Declaration.ascriptionsList_eq_sites false _, ?_⟩
  intro site a hmem hparsed
  have hsites : Declaration.sitesList false (m.file file).declarations =
      (Declaration.sitesList false file.declarations).map (Site.apply m.atSite) := by
    rw [declarations_file, Declaration.sitesList_mapSites]
  rw [hsites] at hmem
  obtain ⟨⟨s, b⟩, hb, heq⟩ := List.mem_map.mp hmem
  obtain ⟨rfl, rfl⟩ := Prod.mk.inj heq
  have hread : b.type = b.parsed := by
    apply SourceFile.type_eq_parsed hparse
    rw [Declaration.ascriptionsList_eq_sites false]
    exact List.mem_map_of_mem hb
  rw [m.atSite_eq] at hparsed
  have htype : b.type.opaqueCount = 0 := by rw [hread]; exact hparsed
  exact opaqueCount_atSite htype

/-- A function whose parameters and result are all interfaces: only the plain
parameter and the result may hide their types. -/
theorem some_only_where_admitted_in_function :
    let text := "func f(_ a: P, b: [P]?, c: P = X.shared.y, d: P...) -> P {}"
    let file : SourceFile := ⟨"f", text, (SourceFile.run text).1⟩
    let m : Migration := ⟨fun n => n == "P", ⟨.strict, false⟩⟩
    SourceFile.parse "f" text = .ok file ∧
      (Declaration.sitesList false (m.file file).declarations).map
        (fun x => x.2.type.opaqueCount) = [1, 0, 0, 0, 1] ∧
      ∀ site a, (site, a) ∈ Declaration.sitesList false (m.file file).declarations →
        a.parsed.opaqueCount = 0 → a.type.opaqueCount ≠ 0 → site.AdmitsSome := by
  intro text file m
  have hparse : SourceFile.parse "f" text = .ok file :=
    SourceFile.parse_eq_ok_iff.mpr ⟨by decide +kernel, rfl⟩
  refine ⟨hparse, by decide +kernel, ?_⟩
  intro site a hmem hparsed hsome
  exact (((some_only_where_admitted hparse m).2 site a hmem hparsed).2 hsome).2.2

end Migration

end AnySome
