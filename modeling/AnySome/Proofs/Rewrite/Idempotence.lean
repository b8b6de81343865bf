import AnySome.Proofs.Migration.Passes
import AnySome.Proofs.Rewrite.Lossless

/-!
# Migrating a file twice

The text of a migrated file is read again and migrated again. Either a type is
nested too deeply now, which is then the first problem of the new text, or the
new text holds the same declarations with the new types in them
(`Migration.parse_written`), and only if a changed type was near the limit can
the former happen (`Migration.parse_written_of_levels`). The second migration
finds every type in the form that the first has given it and changes nothing,
since qualifying a type twice for one place is qualifying it once
(`TypeExpr.requalify_requalify`).

## Main results

* `Migration.written_file_reads_back` — the declarations of a migrated file
  are read back from its text.
* `Migration.text_of_text` — a second migration changes nothing.
-/

namespace AnySome

/-! ## Ascriptions told apart by their places -/

/-- Where ascriptions are told apart, what is done to each at its site is a
function of the ascription alone. -/
theorem Site.exists_function {l : List (Site × Ascription)}
    (h : (l.map Prod.snd).Pairwise (· ≠ ·)) (k : Site → Ascription → Ascription) :
    ∃ f : Ascription → Ascription, ∀ x ∈ l, f x.2 = k x.1 x.2 := by
  induction l with
  | nil => exact ⟨id, by simp⟩
  | cons x l ih =>
    obtain ⟨hx, hl⟩ := List.pairwise_cons.mp h
    obtain ⟨f, hf⟩ := ih hl
    refine ⟨fun a => if a = x.2 then k x.1 x.2 else f a, ?_⟩
    intro y hy
    rcases List.mem_cons.mp hy with rfl | hy
    · exact if_pos rfl
    · have hne : ¬y.2 = x.2 := fun heq => hx y.2 (List.mem_map_of_mem hy) heq.symm
      simp only [if_neg hne]
      exact hf y hy

namespace Migration

open SourceFile

variable (m : Migration) {name text : String} {file : SourceFile}

theorem exists_file_of_text {out : String} (h : m.text name text = .ok out) :
    ∃ file, parse name text = .ok file ∧ (m.file file).render = out := by
  unfold Migration.text at h
  cases hparse : parse name text with
  | error e =>
    rw [hparse] at h
    contradiction
  | ok file =>
    rw [hparse] at h
    exact ⟨file, rfl, Except.ok.inj h⟩

/-- Qualifying an ascription that reads as qualified for its site changes
nothing. -/
theorem atSite_of_read {s : Site} {a b : Ascription} (h : b.type = (m.atSite s a).type) :
    (m.atSite s b).type = b.type := by
  unfold atSite at h ⊢
  cases hkey : m.keyword s with
  | none => rfl
  | some k =>
    rw [hkey] at h
    show b.type.requalify m.rules k = b.type
    rw [show b.type = a.type.requalify m.rules k from h]
    exact TypeExpr.requalify_requalify m.rules k a.type

theorem variant_atSite {s : Site} {a : Ascription} (h : a.type = a.parsed) :
    TypeExpr.Variant 2 a.parsed (m.atSite s a).type := by
  unfold atSite
  cases hkey : m.keyword s with
  | none =>
    rw [show (m.ascription none a).type = a.type from rfl, h]
    exact .same 2 _
  | some k =>
    rw [show (m.ascription (some k) a).type = a.type.requalify m.rules k from rfl, h]
    exact .requalified _ _ _

/-- The types of a migrated file, told by its ascriptions. -/
theorem exists_types (hparse : parse name text = .ok file) :
    ∃ type : Ascription → TypeExpr, ∀ x ∈ Declaration.sitesList false file.declarations,
      type x.2 = (m.atSite x.1 x.2).type := by
  obtain ⟨_, rfl⟩ := parse_eq_ok_iff.mp hparse
  obtain ⟨lo, hstrung⟩ := strung_recover name text
  have hdistinct : ((Declaration.sitesList false (run text).1).map Prod.snd).Pairwise
      (· ≠ ·) := by
    rw [← Declaration.ascriptionsList_eq_sites]
    refine hstrung.pairwise.imp ?_
    rintro a b ⟨hlt, _⟩ rfl
    omega
  obtain ⟨f, hf⟩ := Site.exists_function hdistinct m.atSite
  exact ⟨fun a => (f a).type, fun x hx => congrArg Ascription.type (hf x hx)⟩

theorem ascriptionsList_of_types {type : Ascription → TypeExpr}
    (htype : ∀ x ∈ Declaration.sitesList false file.declarations,
      type x.2 = (m.atSite x.1 x.2).type) :
    Declaration.ascriptionsList (m.file file).declarations =
      (Declaration.ascriptionsList file.declarations).map fun a => { a with type := type a } := by
  rw [m.declarations_file, Declaration.ascriptionsList_mapSites,
    Declaration.ascriptionsList_eq_sites false, List.map_map]
  apply List.map_congr_left
  intro x hx
  rw [m.atSite_eq, Function.comp_apply, htype x hx]

theorem variant_of_types (hparse : parse name text = .ok file) {type : Ascription → TypeExpr}
    (htype : ∀ x ∈ Declaration.sitesList false file.declarations,
      type x.2 = (m.atSite x.1 x.2).type) :
    ∀ a ∈ Declaration.ascriptionsList file.declarations,
      TypeExpr.Variant 2 a.parsed (type a) := by
  intro a ha
  have hread := type_eq_parsed hparse ha
  rw [Declaration.ascriptionsList_eq_sites false] at ha
  obtain ⟨x, hx, rfl⟩ := List.mem_map.mp ha
  rw [htype x hx]
  exact m.variant_atSite hread

/-- What reading the text of a migrated file can give: a type nested too deeply,
if a changed one is within two levels of the limit, or the migrated
declarations. -/
theorem parse_written_of_levels (hparse : parse name text = .ok file) :
    ((∃ a ∈ Declaration.ascriptionsList (m.file file).declarations, a.isChanged = true ∧
        ¬ReadsWithin text (TypeExpr.nestingLimit - 2) a) ∧
      ∃ e, parse name (m.file file).render = .error e ∧
        e.diagnostics.head?.map Diagnostic.message = some "type is nested too deeply") ∨
      ∃ g, parse name (m.file file).render = .ok g ∧
        Declaration.outlineList Ascription.bare g.declarations =
          Declaration.outlineList Ascription.settled (m.file file).declarations := by
  obtain ⟨type, htype⟩ := m.exists_types hparse
  have htext : file.text = text := text_of_parse hparse
  -- A type that stays as it was gains no levels.
  let growth : Ascription → Nat := fun a => if type a = a.parsed then 0 else 2
  have hvariant : ∀ a ∈ Declaration.ascriptionsList file.declarations,
      TypeExpr.Variant (growth a) a.parsed (type a) := by
    intro a ha
    by_cases hsame : type a = a.parsed
    · rw [hsame]
      exact .same _ _
    · rw [show growth a = 2 from if_neg hsame]
      exact m.variant_of_types hparse htype a ha
  have hascriptions := m.ascriptionsList_of_types htype
  have hdeep : ∀ a ∈ Declaration.ascriptionsList file.declarations,
      ¬ReadsWithin text (TypeExpr.nestingLimit - growth a) a →
        ∃ b ∈ Declaration.ascriptionsList (m.file file).declarations, b.isChanged = true ∧
          ¬ReadsWithin text (TypeExpr.nestingLimit - 2) b := by
    intro a ha hlevels
    by_cases hsame : type a = a.parsed
    · rw [show growth a = 0 from if_pos hsame] at hlevels
      exact absurd (readsWithin_limit hparse ha) hlevels
    · refine ⟨{ a with type := type a }, ?_, ?_, ?_⟩
      · rw [hascriptions]
        exact List.mem_map_of_mem ha
      · simpa [Ascription.isChanged] using hsame
      · rwa [show growth a = 2 from if_neg hsame] at hlevels
  have houtline : Declaration.outlineList Ascription.settled (m.file file).declarations =
      Declaration.outlineList (fun a => ⟨default, type a, type a⟩) file.declarations := by
    rw [m.declarations_file]
    apply Declaration.outlineList_mapSites
    intro x hx
    rw [htype x hx]
    rfl
  rw [houtline]
  exact parse_render hparse hvariant hdeep htext hascriptions

/-- What reading the text of a migrated file can give: a type nested too
deeply, or the migrated declarations. -/
theorem parse_written (hparse : parse name text = .ok file) :
    (∃ e, parse name (m.file file).render = .error e ∧
        e.diagnostics.head?.map Diagnostic.message = some "type is nested too deeply") ∨
      ∃ g, parse name (m.file file).render = .ok g ∧
        Declaration.outlineList Ascription.bare g.declarations =
          Declaration.outlineList Ascription.settled (m.file file).declarations := by
  rcases m.parse_written_of_levels hparse with ⟨_, hdeep⟩ | hread
  · exact .inl hdeep
  · exact .inr hread

/-- A migrated file declares the same protocols. -/
theorem interfaceNames_file (file : SourceFile) :
    (m.file file).interfaceNames = file.interfaceNames := by
  have houtline : Declaration.outlineList Ascription.asRead (m.file file).declarations =
      Declaration.outlineList Ascription.asRead file.declarations := by
    rw [m.declarations_file]
    apply Declaration.outlineList_mapSites
    intro x _
    rw [m.atSite_eq]
    rfl
  have hnames := congrArg Declaration.interfaceNamesList houtline
  rwa [Declaration.interfaceNamesList_outline, Declaration.interfaceNamesList_outline] at hnames

/-- The ascriptions of a migrated file are in order. -/
theorem ascriptions_file (hparse : parse name text = .ok file) :
    (m.file file).ascriptions = Declaration.ascriptionsList (m.file file).declarations := by
  obtain ⟨_, rfl⟩ := parse_eq_ok_iff.mp hparse
  exact ascriptions_of_asRead (asRead_migrated m (recover name text).1)

/-- A file that reads like a migrated file is not changed by the migration. -/
theorem render_of_read {g : SourceFile} (hparse : parse name text = .ok g)
    (houtline : Declaration.outlineList Ascription.bare g.declarations =
      Declaration.outlineList Ascription.settled (m.file file).declarations) :
    (m.file g).render = text := by
  have htext : g.text = text := text_of_parse hparse
  rw [← htext]
  refine render_of_unchanged (f := m.file g) ?_
  rw [m.ascriptions_file hparse]
  -- Every ascription has the type that the first migration gave to it.
  have hsites := congrArg (Declaration.sitesList false) houtline
  rw [Declaration.sitesList_outline, Declaration.sitesList_outline, m.declarations_file,
    Declaration.sitesList_mapSites, List.map_map] at hsites
  have hfirst : ∀ x ∈ Declaration.sitesList false g.declarations,
      (m.atSite x.1 x.2).type = x.2.type := by
    intro x hx
    have hmem : (x.1, x.2.bare) ∈ (Declaration.sitesList false g.declarations).map
        (Site.apply fun _ => Ascription.bare) := List.mem_map_of_mem hx
    rw [hsites] at hmem
    obtain ⟨y, _, hy⟩ := List.mem_map.mp hmem
    obtain ⟨hsite, hbare⟩ := Prod.mk.inj hy
    have htype : (m.atSite y.1 y.2).settled.type = x.2.bare.type := by
      rw [← hbare]
      rfl
    rw [← hsite]
    exact m.atSite_of_read htype.symm
  intro a ha
  obtain ⟨x, hx, rfl, hread⟩ := exists_atSite_of_mem hparse m ha
  unfold Ascription.isChanged
  rw [hfirst x hx, hread]
  simp

/-- The text of a migrated file reads back as the migrated declarations,
places apart, and so declares the same protocols as before; or a type is nested
too deeply now, and that is the first problem of the text. -/
theorem written_file_reads_back (hparse : parse name text = .ok file) (m : Migration) :
    (∃ g, parse name (m.file file).render = .ok g ∧
        Declaration.outlineList Ascription.bare g.declarations =
          Declaration.outlineList Ascription.settled (m.file file).declarations ∧
        g.interfaceNames = file.interfaceNames) ∨
      ∃ e, parse name (m.file file).render = .error e ∧
        e.diagnostics.head?.map Diagnostic.message = some "type is nested too deeply" := by
  rcases m.parse_written hparse with hdeep | ⟨g, hg, houtline⟩
  · exact .inr hdeep
  · refine .inl ⟨g, hg, houtline, ?_⟩
    have hnames := congrArg Declaration.interfaceNamesList houtline
    rw [Declaration.interfaceNamesList_outline, Declaration.interfaceNamesList_outline] at hnames
    exact hnames.trans (m.interfaceNames_file file)

/-- A protocol and a function that uses it, with a default value and dots. -/
theorem written_file_reads_back_protocol :
    let text := "protocol P { func g() -> P }\nfunc f(_ x: P = y, z: P?...) {}"
    let file : SourceFile := ⟨"f", text, (run text).1⟩
    let f := (⟨fun n => n == "P", ⟨.strict, true⟩⟩ : Migration).file file
    parse "f" text = .ok file ∧ f.changedCount = 3 ∧
      ∃ g, parse "f" f.render = .ok g ∧
        Declaration.outlineList Ascription.bare g.declarations =
          Declaration.outlineList Ascription.settled f.declarations ∧
        g.interfaceNames = file.interfaceNames := by
  intro text file f
  have hparse : parse "f" text = .ok file := parse_eq_ok_iff.mpr ⟨by decide +kernel, rfl⟩
  have hrender := render_migrated hparse ⟨fun n => n == "P", ⟨.strict, true⟩⟩
  refine ⟨hparse, by decide +kernel, ?_⟩
  rcases written_file_reads_back hparse ⟨fun n => n == "P", ⟨.strict, true⟩⟩ with
    hread | ⟨e, he, _⟩
  · exact hread
  · rw [hrender, parse_eq, if_pos (by decide +kernel)] at he
    contradiction

/-- A migrated text is read and left as it is by the same migration; or a type
is nested too deeply in it, and that is its first problem. -/
theorem text_of_text {out : String} (h : m.text name text = .ok out) :
    ((∃ g, parse name out = .ok g) ∧ m.text name out = .ok out) ∨
      ∃ e, parse name out = .error e ∧
        e.diagnostics.head?.map Diagnostic.message = some "type is nested too deeply" := by
  obtain ⟨file, hparse, rfl⟩ := m.exists_file_of_text h
  rcases m.parse_written hparse with hdeep | ⟨g, hg, houtline⟩
  · exact .inr hdeep
  · refine .inl ⟨⟨g, hg⟩, ?_⟩
    unfold Migration.text
    rw [hg]
    exact congrArg Except.ok (m.render_of_read hg houtline)

/-- A function with an optional parameter: the second migration is read and
changes nothing. -/
theorem text_of_text_function :
    let m : Migration := ⟨fun n => n == "P", ⟨.strict, false⟩⟩
    let out := "func f(x: (any P)?) -> some P {}"
    m.text "f" "func f(x: P?) -> P {}" = .ok out ∧ m.text "f" out = .ok out := by
  intro m out
  have hparse : parse "f" "func f(x: P?) -> P {}" =
      .ok ⟨"f", "func f(x: P?) -> P {}", (run "func f(x: P?) -> P {}").1⟩ :=
    parse_eq_ok_iff.mpr ⟨by decide +kernel, rfl⟩
  have h : m.text "f" "func f(x: P?) -> P {}" = .ok out := by
    rw [Migration.text, hparse]
    show Except.ok (m.file _).render = _
    rw [render_migrated hparse m]
    decide +kernel
  refine ⟨h, ?_⟩
  rcases m.text_of_text h with ⟨_, hsecond⟩ | ⟨e, he, _⟩
  · exact hsecond
  · rw [parse_eq, if_pos (by decide +kernel)] at he
    contradiction

end Migration

end AnySome
