import AnySome.Proofs.Rewrite.Nesting
import AnySome.Proofs.TypeGrammar.Alone

/-!
# How deep a type that was read can be

The nesting limit counts how often a type is read inside a type. A question
mark is a suffix: it puts an optional around the type in front of it without
reading a type inside it, and so it is not counted. All other layers of a type
are.

So a type that was read has at most as many layers as the limit allows, once
the optionals on the way are left out. With them there is no bound: each
further question mark is one more layer.

## Main results

* `TypeExpr.depth_le` — on every way down a type, what is no optional is counted
  by its height.
* `TypeExpr.depth_within_limit_but_for_optionals` — the depth of accepted types.
* `TypeExpr.question_marks_exceed_limit` — accepted types beyond the limit.
-/

namespace AnySome.TypeExpr

/-! ## Depth -/

mutual
/-- Number of types on the longest way from the type down to one that holds no
further types. -/
def depth : TypeExpr → Nat
  | .named _ | .verbatim _ => 1
  | .generic _ arguments => depthList arguments + 1
  | .optional t | .qualified _ t | .attributed _ t => depth t + 1
  | .tuple elements => depthElements elements + 1
  | .function parameters _ result => max (depthElements parameters) (depth result) + 1

/-- The greatest depth of some types. -/
def depthList : List TypeExpr → Nat
  | [] => 0
  | t :: ts => max (depth t) (depthList ts)

/-- The greatest depth of some elements. -/
def depthElements : List (Element TypeExpr) → Nat
  | [] => 0
  | ⟨_, t, _⟩ :: es => max (depth t) (depthElements es)
end

mutual
/-- The greatest number of optionals on one way down the type. -/
def optionalDepth : TypeExpr → Nat
  | .named _ | .verbatim _ => 0
  | .generic _ arguments => optionalDepthList arguments
  | .optional t => optionalDepth t + 1
  | .qualified _ t | .attributed _ t => optionalDepth t
  | .tuple elements => optionalDepthElements elements
  | .function parameters _ result => max (optionalDepthElements parameters) (optionalDepth result)

/-- The same for some types. -/
def optionalDepthList : List TypeExpr → Nat
  | [] => 0
  | t :: ts => max (optionalDepth t) (optionalDepthList ts)

/-- The same for some elements. -/
def optionalDepthElements : List (Element TypeExpr) → Nat
  | [] => 0
  | ⟨_, t, _⟩ :: es => max (optionalDepth t) (optionalDepthElements es)
end

mutual
/-- A way down a type passes optionals and at most as many other types as the
type is high. -/
theorem depth_le : (t : TypeExpr) → t.depth ≤ t.height + t.optionalDepth
  | .named _ | .verbatim _ => Nat.le_refl 1
  | .generic _ arguments => by
    have harguments := depthList_le arguments
    simp only [depth, height, optionalDepth]
    omega
  | .optional t => by
    have hpayload := depth_le t
    simp only [depth, height, optionalDepth]
    omega
  | .tuple elements => by
    have helements := depthElements_le elements
    simp only [depth, height, optionalDepth]
    omega
  | .function parameters _ result => by
    have hparameters := depthElements_le parameters
    have hresult := depth_le result
    simp only [depth, height, optionalDepth]
    omega
  | .qualified _ t | .attributed _ t => by
    have hinner := depth_le t
    simp only [depth, height, optionalDepth]
    omega

theorem depthList_le : (ts : List TypeExpr) →
    depthList ts ≤ heightList ts + optionalDepthList ts
  | [] => Nat.le_refl 0
  | t :: ts => by
    have ht := depth_le t
    have hts := depthList_le ts
    simp only [depthList, heightList, optionalDepthList]
    omega

theorem depthElements_le : (es : List (Element TypeExpr)) →
    depthElements es ≤ heightElements es + optionalDepthElements es
  | [] => Nat.le_refl 0
  | ⟨_, t, _⟩ :: es => by
    have ht := depth_le t
    have hes := depthElements_le es
    simp only [depthElements, heightElements, optionalDepthElements]
    omega
end

/-! ## Accepted types -/

/-- Whether a text is read as a type or as a file, each type in it has on each
way down at most as many types that are no optionals as the limit allows. -/
theorem depth_within_limit_but_for_optionals (text : String) :
    (∀ t, parse text = .ok t → t.depth ≤ nestingLimit + t.optionalDepth) ∧
      ∀ name file, SourceFile.parse name text = .ok file →
        ∀ a ∈ Declaration.ascriptionsList file.declarations,
          a.parsed.depth ≤ nestingLimit + a.parsed.optionalDepth := by
  constructor
  · intro t hparse
    obtain ⟨_, hspells, _⟩ := exists_spells_of_parse hparse
    have hheight := hspells.height_le
    have hdepth := t.depth_le
    omega
  · intro name file hparse a ha
    have hheight := SourceFile.height_le hparse ha
    have hdepth := a.parsed.depth_le
    rw [SourceFile.type_eq_parsed hparse ha] at hheight
    omega

/-- A name with `n` question marks behind it. -/
def questioned (n : Nat) : String := String.ofList ('P' :: List.replicate n '?')

/-- A variable whose type is such a name. -/
def questionedVariable (n : Nat) : String :=
  String.ofList ("let x: ".toList ++ 'P' :: List.replicate n '?')

theorem scan_questioned (n : Nat) : TokenStream.scan (questioned n) =
    TokenStream.scanFrom 0 ('P' :: List.replicate n '?') := by
  unfold questioned TokenStream.scan TokenStream.body
  rw [String.toList_ofList]
  rfl

theorem scan_questionedVariable (n : Nat) : TokenStream.scan (questionedVariable n) =
    TokenStream.scanFrom 0 ("let x: ".toList ++ 'P' :: List.replicate n '?') := by
  unfold questionedVariable TokenStream.scan TokenStream.body
  rw [String.toList_ofList]
  rfl

/-- The depth of a name with one question mark, and of one with as many as the
limit allows levels as the type of a variable. -/
theorem depth_of_questioned_within : (∃ t, parse (questioned 1) = .ok t ∧ t.depth = 2 ∧
      t.depth ≤ nestingLimit + t.optionalDepth) ∧
    ∃ file, SourceFile.parse "f" (questionedVariable 128) = .ok file ∧
      ∃ a ∈ Declaration.ascriptionsList file.declarations, a.parsed.depth = nestingLimit + 1 ∧
        a.parsed.depth ≤ nestingLimit + a.parsed.optionalDepth := by
  have halone : ((run (questioned 1)).2.pending = [] ∧
      (run (questioned 1)).2.findings = []) ∧ (run (questioned 1)).1.depth = 2 := by
    unfold run
    rw [scan_questioned]
    decide +kernel
  have hfile : (SourceFile.run (questionedVariable 128)).2.findings = [] ∧
      ∃ a ∈ Declaration.ascriptionsList (SourceFile.run (questionedVariable 128)).1,
        a.parsed.depth = nestingLimit + 1 := by
    unfold SourceFile.run
    rw [scan_questionedVariable]
    decide +kernel
  obtain ⟨⟨hend, hfindings⟩, hdepth⟩ := halone
  have hparse := parse_eq_ok_iff.mpr ⟨hend, hfindings, rfl⟩
  obtain ⟨hrun, a, ha, hadepth⟩ := hfile
  have hread : SourceFile.parse "f" (questionedVariable 128) = .ok _ :=
    SourceFile.parse_eq_ok_iff.mpr ⟨hrun, rfl⟩
  exact ⟨⟨_, hparse, hdepth, (depth_within_limit_but_for_optionals _).1 _ hparse⟩,
    _, hread, a, ha, hadepth, (depth_within_limit_but_for_optionals _).2 _ _ hread a ha⟩

/-- A name with as many question marks as the limit allows levels is accepted,
and one level deeper than the limit. -/
theorem question_marks_exceed_limit :
    (∃ t, parse (questioned 128) = .ok t ∧ nestingLimit < t.depth) ∧
      ∃ file, SourceFile.parse "f" (questionedVariable 128) = .ok file ∧
        ∃ a ∈ Declaration.ascriptionsList file.declarations, nestingLimit < a.parsed.depth := by
  have halone : ((run (questioned 128)).2.pending = [] ∧
      (run (questioned 128)).2.findings = []) ∧ nestingLimit < (run (questioned 128)).1.depth := by
    unfold run
    rw [scan_questioned]
    decide +kernel
  have hfile : (SourceFile.run (questionedVariable 128)).2.findings = [] ∧
      ∃ a ∈ Declaration.ascriptionsList (SourceFile.run (questionedVariable 128)).1,
        nestingLimit < a.parsed.depth := by
    unfold SourceFile.run
    rw [scan_questionedVariable]
    decide +kernel
  obtain ⟨⟨hend, hfindings⟩, hdepth⟩ := halone
  refine ⟨⟨_, parse_eq_ok_iff.mpr ⟨hend, hfindings, rfl⟩, hdepth⟩, ?_⟩
  obtain ⟨hrun, ha⟩ := hfile
  exact ⟨_, SourceFile.parse_eq_ok_iff.mpr ⟨hrun, rfl⟩, ha⟩

end AnySome.TypeExpr
