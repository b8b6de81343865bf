import AnySome.Proofs.Rewrite.Idempotence

/-!
# Migrated types close to the nesting limit

How deeply types are nested is checked when a text is read. A migration adds
levels after that: one for a qualifier, and one more for the parentheses that a
qualified type needs under an optional. So two levels below the limit there is
room for everything that it writes, and nearer to the limit there is not.

What is read never stands higher than the limit (`SourceFile.height_le`), so a
migrated type that is higher cannot be read back, whatever stands around it.

## Main results

* `TypeExpr.Spells.height_le` — a type is at most as high as its spelling has
  levels.
* `Migration.parse_render_of_height` — a text with a type above the limit is
  rejected.
* `Migration.read_back_below_limit` — where every changed type is two levels
  below the limit, the written text is read back.
-/

namespace AnySome

/-! ## Heights -/

namespace TypeExpr

mutual
/-- Levels of types inside types; what is kept as text counts as one. -/
def height : TypeExpr → Nat
  | .named _ | .verbatim _ => 1
  | .generic _ arguments => heightList arguments + 1
  | .optional t => height t
  | .tuple elements => heightElements elements + 1
  | .function parameters _ result => max (heightElements parameters) (height result) + 1
  | .qualified _ t | .attributed _ t => height t + 1

/-- The greatest height of some types. -/
def heightList : List TypeExpr → Nat
  | [] => 0
  | t :: ts => max (height t) (heightList ts)

/-- The greatest height of some elements. -/
def heightElements : List (Element TypeExpr) → Nat
  | [] => 0
  | ⟨_, t, _⟩ :: es => max (height t) (heightElements es)
end

section Rules

-- Inner types are spelled by `I` and at most `n` high.
variable {I : TypeExpr → List Sign → Ending → Prop} {n : Nat}
  (hI : ∀ {t T e}, I t T e → t.height ≤ n)
include hI

theorem heightList_le {ts : List TypeExpr} {T : List Sign} (h : Listed (Argument I) ts T) :
    heightList ts ≤ n := by
  induction h with
  | nil => exact Nat.zero_le n
  | last ht =>
    obtain ⟨e, he⟩ := ht
    exact Nat.max_le.mpr ⟨hI he, Nat.zero_le n⟩
  | more ht _ _ ih =>
    obtain ⟨e, he⟩ := ht
    exact Nat.max_le.mpr ⟨hI he, ih⟩

theorem heightElements_le {es : List (Element TypeExpr)} {T : List Sign}
    (h : Listed (Item I) es T) : heightElements es ≤ n := by
  induction h with
  | nil => exact Nat.zero_le n
  | last hx =>
    cases hx with
    | mk _ ht _ => exact Nat.max_le.mpr ⟨hI ht, Nat.zero_le n⟩
  | more hx _ _ ih =>
    cases hx with
    | mk _ ht _ => exact Nat.max_le.mpr ⟨hI ht, ih⟩

theorem Atom.height_le {t : TypeExpr} {T : List Sign} {e : Ending} (h : Atom I t T e) :
    t.height ≤ n + 1 := by
  cases h with
  | named _ => exact Nat.le_add_left 1 n
  | generic _ _ hts _ => exact Nat.succ_le_succ (heightList_le hI hts)
  | tuple _ hes _ => exact Nat.succ_le_succ (heightElements_le hI hes)
  | unit _ _ => exact Nat.le_add_left 1 n

theorem Chain.height_le {t : TypeExpr} {T : List Sign} {e : Ending} (h : Chain I t T e) :
    t.height ≤ n + 1 := by
  induction h with
  | atom ha => exact ha.height_le hI
  | optional _ _ _ ih => exact ih
  | member => exact Nat.le_add_left 1 n
  | memberGeneric => exact Nat.le_add_left 1 n
  | unwrapped => exact Nat.le_add_left 1 n

theorem Level.height_le {t : TypeExpr} {T : List Sign} {e : Ending} (h : Level I t T e) :
    t.height ≤ n + 1 := by
  cases h with
  | word _ => exact Nat.le_add_left 1 n
  | plain hs _ =>
    cases hs with
    | chain hc => exact hc.height_le hI
    | function _ hes _ _ _ ht =>
      exact Nat.succ_le_succ (Nat.max_le.mpr ⟨heightElements_le hI hes, hI ht⟩)
  | composition _ _ => exact Nat.le_add_left 1 n
  | qualified _ _ _ ht => exact Nat.succ_le_succ (hI ht)
  | attributed _ _ ht _ => exact Nat.succ_le_succ (hI ht)

end Rules

/-- A type is at most as high as its spelling has levels. -/
theorem Spells.height_le {n : Nat} {t : TypeExpr} {T : List Sign} {e : Ending}
    (h : Spells n t T e) : t.height ≤ n := by
  induction n generalizing t T e with
  | zero => exact h.elim
  | succ n ih => exact Level.height_le ih h

end TypeExpr

namespace SourceFile

/-- What is read is at most as high as the limit allows. -/
theorem height_le {name text : String} {file : SourceFile} (hparse : parse name text = .ok file)
    {a : Ascription} (ha : a ∈ Declaration.ascriptionsList file.declarations) :
    a.type.height ≤ TypeExpr.nestingLimit := by
  obtain ⟨s, _, rfl, _⟩ := exists_segment_of_mem hparse ha
  have hheight := s.spells.height_le
  have hlevels := s.levels_le
  rw [s.type_eq]
  omega

end SourceFile

/-! ## Reading a migrated text -/

namespace Migration

open SourceFile

variable {name text : String} {file : SourceFile} (m : Migration)

/-- A text with a type above the limit is rejected. -/
theorem parse_render_of_height (hparse : parse name text = .ok file) {a : Ascription}
    (ha : a ∈ Declaration.ascriptionsList (m.file file).declarations)
    (hheight : TypeExpr.nestingLimit < a.type.height) :
    ∃ e, parse name (m.file file).render = .error e ∧
      e.diagnostics.head?.map Diagnostic.message = some "type is nested too deeply" := by
  rcases m.parse_written hparse with hdeep | ⟨g, hg, houtline⟩
  · exact hdeep
  · -- Otherwise the type has been read back, and so it is below the limit.
    have hread := congrArg Declaration.ascriptionsList houtline
    rw [Declaration.ascriptionsList_outline, Declaration.ascriptionsList_outline] at hread
    have hmem : a.settled ∈ (Declaration.ascriptionsList g.declarations).map Ascription.bare := by
      rw [hread]
      exact List.mem_map_of_mem ha
    obtain ⟨b, hb, hbare⟩ := List.mem_map.mp hmem
    have htype : b.type = a.type := (Ascription.mk.inj hbare).2.2
    have hle := height_le hg hb
    rw [htype] at hle
    omega

/-- Where every changed type has been read with two levels less than the limit,
the written text is read back. -/
theorem read_back_below_limit (hparse : parse name text = .ok file) (m : Migration)
    (hlevels : ∀ a ∈ Declaration.ascriptionsList (m.file file).declarations,
      a.isChanged = true → ReadsWithin text (TypeExpr.nestingLimit - 2) a) :
    ∃ g, parse name (m.file file).render = .ok g := by
  rcases m.parse_written_of_levels hparse with ⟨⟨a, ha, hchanged, hnear⟩, _⟩ | ⟨g, hg, _⟩
  · exact absurd (hlevels a ha hchanged) hnear
  · exact ⟨g, hg⟩

/-! ## At the limit -/

/-- A variable whose type stands in `n` pairs of parentheses. -/
def nested (n : Nat) (type : String) : String :=
  String.ofList ("let x: ".toList ++
    (List.replicate n '(' ++ (type.toList ++ List.replicate n ')')))

theorem scan_nested (n : Nat) (type : String) : TokenStream.scan (nested n type) =
    TokenStream.scanFrom 0 ("let x: ".toList ++
      (List.replicate n '(' ++ (type.toList ++ List.replicate n ')'))) := by
  unfold nested TokenStream.scan TokenStream.body
  rw [String.toList_ofList]
  rfl

/-- Two levels below the limit an optional gets its parentheses and its
qualifier. -/
theorem read_back_below_limit_nested :
    let m : Migration := ⟨fun n => n == "P", ⟨.strict, false⟩⟩
    let file : SourceFile := ⟨"f", nested 125 "P?", (run (nested 125 "P?")).1⟩
    parse "f" (nested 125 "P?") = .ok file ∧ (m.file file).changedCount = 1 ∧
      ∃ g, parse "f" (m.file file).render = .ok g := by
  intro m file
  have hread : (run (nested 125 "P?")).2.findings = [] ∧ (m.file file).changedCount = 1 ∧
      ∀ a ∈ Declaration.ascriptionsList (m.file file).declarations,
        a.isChanged = true → ReadsWithin (nested 125 "P?") (TypeExpr.nestingLimit - 2) a := by
    unfold file run ReadsWithin place
    rw [scan_nested]
    decide +kernel
  obtain ⟨hrun, hcount, hlevels⟩ := hread
  have hparse : parse "f" (nested 125 "P?") = .ok file := parse_eq_ok_iff.mpr ⟨hrun, rfl⟩
  exact ⟨hparse, hcount, read_back_below_limit hparse m hlevels⟩

/-- At the limit there is no room for a qualifier, and one level below it there
is none for an optional. -/
theorem not_read_back_at_limit :
    let m : Migration := ⟨fun n => n == "P", ⟨.strict, false⟩⟩
    ∀ text ∈ [nested 127 "P", nested 126 "P?"], ∃ file, parse "f" text = .ok file ∧
      ∃ e, parse "f" (m.file file).render = .error e := by
  intro m
  have hboth : ∀ text ∈ [nested 127 "P", nested 126 "P?"], (run text).2.findings = [] ∧
      ∃ a ∈ Declaration.ascriptionsList (m.declarations false (run text).1),
        TypeExpr.nestingLimit < a.type.height := by
    simp only [List.forall_mem_cons, run, scan_nested]
    decide +kernel
  intro text htext
  obtain ⟨hrun, a, ha, hheight⟩ := hboth text htext
  have hparse : parse "f" text = .ok ⟨"f", text, (run text).1⟩ :=
    parse_eq_ok_iff.mpr ⟨hrun, rfl⟩
  obtain ⟨e, he, _⟩ := m.parse_render_of_height hparse ha hheight
  exact ⟨_, hparse, e, he⟩

end Migration

end AnySome
