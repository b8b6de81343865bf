import AnySome.Pipeline
import AnySome.Proofs.Rewrite.Idempotence

/-!
# Telling whether a file was changed

Whether a migration has changed a file is found out by comparing texts, and how
many types it has changed by comparing types. The two agree. A file without
changed types is written as it was. For the converse, nothing is known about
how types are printed, and the texts that are put in might cancel each other;
but a migrated text reads back as the migrated declarations, and a text can be
read in one way only. So where the migrated text is the old one, the migrated
types are the old ones.

## Main results

* `Migration.types_kept_of_render_eq` — where the text stays, the types do.
* `Migration.changed_iff_rewritten` — a file is reported as changed exactly if
  a type was changed.
-/

namespace AnySome

open SourceFile

namespace SourceFile

theorem changedCount_eq_zero_iff {f : SourceFile} :
    f.changedCount = 0 ↔
      ∀ a ∈ Declaration.ascriptionsList f.declarations, a.isChanged = false := by
  unfold changedCount
  simp only [List.countP_eq_zero, Bool.not_eq_true]

end SourceFile

namespace Migration

variable (m : Migration) {name text : String} {file : SourceFile}

/-- A migrated text that is the old one reads back as the old declarations. -/
theorem outline_of_render_eq (hparse : parse name text = .ok file)
    (hrender : (m.file file).render = text) :
    Declaration.outlineList Ascription.bare file.declarations =
      Declaration.outlineList Ascription.settled (m.file file).declarations := by
  rcases m.parse_written hparse with ⟨e, he, -⟩ | ⟨g, hg, houtline⟩
  · rw [hrender, hparse] at he
    contradiction
  · rw [hrender, hparse] at hg
    cases hg
    exact houtline

/-- Where the migrated text is the old one, every type is. -/
theorem types_kept_of_render_eq (hparse : parse name text = .ok file)
    (hrender : (m.file file).render = text) :
    ∀ a ∈ Declaration.ascriptionsList (m.file file).declarations, a.isChanged = false := by
  have hlists := congrArg Declaration.ascriptionsList (m.outline_of_render_eq hparse hrender)
  rw [Declaration.ascriptionsList_outline, Declaration.ascriptionsList_outline, m.declarations_file,
    Declaration.ascriptionsList_mapSites, Declaration.ascriptionsList_eq_sites false, List.map_map,
    List.map_map] at hlists
  intro a ha
  obtain ⟨x, hx, rfl, hread⟩ := exists_atSite_of_mem hparse m ha
  have hbare : x.2.bare = (m.atSite x.1 x.2).settled := List.map_inj_left.mp hlists x hx
  have htype : x.2.bare.type = (m.atSite x.1 x.2).settled.type :=
    congrArg Ascription.type hbare
  change x.2.type = (m.atSite x.1 x.2).type at htype
  unfold Ascription.isChanged
  rw [← htype, hread]
  simp

/-- Where no type is changed, the text stays. -/
theorem render_eq_of_types_kept (hparse : parse name text = .ok file)
    (hkept : ∀ a ∈ Declaration.ascriptionsList (m.file file).declarations, a.isChanged = false) :
    (m.file file).render = text := by
  rw [← m.ascriptions_file hparse] at hkept
  rw [render_of_unchanged hkept]
  exact show file.text = text from text_of_parse hparse

theorem render_eq_text_iff (hparse : parse name text = .ok file) :
    (m.file file).render = text ↔ (m.file file).changedCount = 0 := by
  rw [changedCount_eq_zero_iff]
  exact ⟨m.types_kept_of_render_eq hparse, m.render_eq_of_types_kept hparse⟩

/-- The text of a file stays exactly if none of its types is changed. So a file
is reported as changed only with the positive number of its changed types, and
as unchanged only if there are none. -/
theorem changed_iff_rewritten (hparse : parse name text = .ok file) :
    ((m.file file).render = text ↔ (m.file file).changedCount = 0) ∧
      ∀ cancelled : Bool,
        (∀ n, (Pipeline.migrate m cancelled file).1 = .changed n →
          1 ≤ n ∧ n = (m.file file).changedCount) ∧
        ((Pipeline.migrate m cancelled file).1 = .unchanged →
          (m.file file).changedCount = 0) := by
  have hiff := m.render_eq_text_iff hparse
  refine ⟨hiff, ?_⟩
  intro cancelled
  have htext : file.text = text := text_of_parse hparse
  unfold Pipeline.migrate
  cases cancelled with
  | true =>
    rw [if_pos rfl]
    constructor
    · intro n h
      contradiction
    · intro h
      contradiction
  | false =>
    dsimp only
    rw [if_neg Bool.false_ne_true, htext]
    by_cases hsame : (m.file file).render = text
    · rw [if_pos hsame]
      constructor
      · intro n h
        contradiction
      · intro _
        exact hiff.mp hsame
    · rw [if_neg hsame]
      constructor
      · intro n h
        have hn : (m.file file).changedCount = n := FileStatus.changed.inj h
        have hne : (m.file file).changedCount ≠ 0 := fun hzero => hsame (hiff.mpr hzero)
        exact ⟨by omega, hn.symm⟩
      · intro h
        contradiction

/-- A file with one type that is changed and one that has its qualifier. -/
theorem changed_iff_rewritten_of_parameter :
    let text := "func f(x: P, y: any P) {}"
    let file : SourceFile := ⟨"f", text, (run text).1⟩
    let m : Migration := ⟨fun n => n == "P", ⟨.strict, true⟩⟩
    (Pipeline.migrate m false file).1 = .changed 1 ∧ (m.file file).changedCount = 1 ∧
      (m.file file).render ≠ text := by
  intro text file m
  have hparse : parse "f" text = .ok file := parse_eq_ok_iff.mpr ⟨by decide +kernel, rfl⟩
  have hrender : (m.file file).render = "func f(x: some P, y: any P) {}" := by
    rw [render_migrated hparse m]
    decide +kernel
  have hmigrate : (Pipeline.migrate m false file).1 = .changed 1 := by
    unfold Pipeline.migrate
    dsimp only
    rw [hrender]
    decide +kernel
  obtain ⟨hiff, hturn⟩ := changed_iff_rewritten m hparse
  obtain ⟨hpos, hcount⟩ := (hturn false).1 1 hmigrate
  refine ⟨hmigrate, hcount.symm, ?_⟩
  intro hsame
  have hzero := hiff.mp hsame
  omega

end Migration

end AnySome
