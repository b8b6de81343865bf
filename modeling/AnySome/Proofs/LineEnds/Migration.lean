import AnySome.Proofs.LineEnds.Declarations
import AnySome.Proofs.Migration.Exclusion
import AnySome.Proofs.Run.Rejection

/-!
# Migrating a text with other line ends

A text and its conversion are accepted together, and the migration then writes a
text and its conversion. For the names that are looked up stand in one line, so
the same types are changed; whether a default value is read through a shared
instance is not told by line ends; and what is written in the place of a type is
converted with it.

The one thing that tells the two texts apart is a backslash in front of a line
feed, which escapes one character in a string: in the conversion that is the
carriage return, and the string ends with its line.

## Main results

* `TypeExpr.requalify_crlf` — qualifying a converted type.
* `SourceFile.Replaces.crlf` — replacing types in a converted text.
* `Migration.text_crlf` — migrating a converted text.
-/

namespace AnySome

open Text (crlfChars crlfOffset EscapesLineFeed)

/-! ## Types -/

namespace TypeExpr

/-- The name in the outermost layer, if there is one, stands in one line. -/
def InLine : TypeExpr → Prop
  | .named name => '\n' ∉ name.toList
  | .generic base _ => '\n' ∉ base.toList
  | _ => True

/-- The names in what is read stand in one line if those in the text do. -/
theorem Spells.inLine {n : Nat} {t : TypeExpr} {T : List Sign} {e : Ending} (h : Spells n t T e)
    (hT : ∀ s ∈ T, s.kind.isName = true → '\n' ∉ s.text.toList) : Throughout InLine t := by
  refine h.throughout ?_ hT
  constructor
  case named => exact fun hx hname => hname (by rw [hx]; rfl)
  case generic => exact fun hx hname => hname (by rw [hx]; rfl)
  all_goals intros; trivial

theorem isQualified_crlf (t : TypeExpr) : t.crlf.isQualified = t.isQualified := by
  cases t <;> rfl

theorem optionalOf_crlf (t : TypeExpr) : optionalOf t.crlf = (optionalOf t).crlf := by
  unfold optionalOf
  rw [isQualified_crlf]
  split <;> rfl

theorem hasLeadingQualifier_crlf : (t : TypeExpr) →
    t.crlf.hasLeadingQualifier = t.hasLeadingQualifier
  | .tuple [⟨none, t, false⟩] => hasLeadingQualifier_crlf t
  | .optional t => hasLeadingQualifier_crlf t
  | .tuple [] => rfl
  | .tuple [⟨none, _, true⟩] => rfl
  | .tuple [⟨some _, _, _⟩] => rfl
  | .tuple (⟨_, _, _⟩ :: ⟨_, _, _⟩ :: _) => by
    simp [crlf, crlfElements, hasLeadingQualifier]
  | .named _ | .verbatim _ | .generic _ _ | .function _ _ _ => rfl
  | .qualified _ _ | .attributed _ _ => rfl

theorem keepQualifier_crlf (q : Qualifier) (t : TypeExpr) :
    keepQualifier q t.crlf = (keepQualifier q t).crlf := by
  unfold keepQualifier
  rw [hasLeadingQualifier_crlf]
  split <;> rfl

section Requalify

variable {rules : Rules}

mutual
/-- The names that are looked up stay, so a converted type is qualified in the
same places. -/
theorem requalify_crlf (k : Qualifier) : (t : TypeExpr) → Throughout InLine t →
    requalify rules k t.crlf = (requalify rules k t).crlf
  | .named name, h => by
    have hname : Text.crlf name = name := Text.crlf_eq_self h.self
    rw [crlf, requalify, requalify, hname]
    split <;> simp only [crlf, hname]
  | .verbatim text, _ => by
    rw [crlf, requalify_verbatim, requalify_verbatim, crlf]
  | .generic base arguments, h => by
    obtain ⟨hself, harguments⟩ := Throughout.generic_iff.mp h
    have hbase : Text.crlf base = base := Text.crlf_eq_self hself
    rw [crlf, requalify, requalify, hbase, requalifyList_crlf arguments harguments]
    split <;> simp only [crlf, hbase]
  | .optional payload, h => by
    rw [crlf, requalify, requalify, requalify_crlf .any payload (Throughout.optional_iff.mp h).2,
      optionalOf_crlf]
  | .tuple elements, h => by
    rw [crlf, requalify, requalify,
      requalifyElements_crlf elements (Throughout.tuple_iff.mp h).2, crlf]
  | .function parameters effects result, h => by
    obtain ⟨_, hparameters, hresult⟩ := Throughout.function_iff.mp h
    rw [crlf, requalify, requalify, requalifyElements_crlf parameters hparameters,
      requalify_crlf .any result hresult, crlf]
  | .qualified q inner, h => by
    rw [crlf, requalify, requalify, requalify_crlf k inner (Throughout.qualified_iff.mp h).2,
      keepQualifier_crlf]
    split
    · rw [crlf]
    · rfl
  | .attributed specifiers inner, h => by
    rw [crlf, requalify, requalify, requalify_crlf k inner (Throughout.attributed_iff.mp h).2, crlf]

theorem requalifyList_crlf : (ts : List TypeExpr) → (∀ t ∈ ts, Throughout InLine t) →
    requalifyList rules (crlfList ts) = crlfList (requalifyList rules ts)
  | [], _ => rfl
  | t :: ts, h => by
    obtain ⟨ht, hts⟩ := List.forall_mem_cons.mp h
    rw [crlfList, requalifyList, requalifyList, requalify_crlf .any t ht,
      requalifyList_crlf ts hts, crlfList]

theorem requalifyElements_crlf : (es : List (Element TypeExpr)) →
    (∀ x ∈ es, Throughout InLine x.type) →
      requalifyElements rules (crlfElements es) = crlfElements (requalifyElements rules es)
  | [], _ => rfl
  | ⟨_, t, _⟩ :: es, h => by
    obtain ⟨ht, hes⟩ := List.forall_mem_cons.mp h
    rw [crlfElements, requalifyElements, requalifyElements, requalify_crlf .any t ht,
      requalifyElements_crlf es hes, crlfElements]
end

end Requalify

end TypeExpr

/-! ## Ascriptions -/

theorem Ascription.isChanged_crlf (text : List Char) (a : Ascription) :
    (a.crlf text).isChanged = a.isChanged := by
  unfold isChanged Ascription.crlf
  simp only [ne_eq, TypeExpr.crlf_eq_iff]

theorem DefaultShape.ofDefault_crlf (default : Option String) :
    ofDefault (default.map Text.crlf) = ofDefault default := by
  cases default with
  | none => rfl
  | some value =>
    show (if Name.occursIn sharedAccess (Text.crlf value) then shared else fresh) =
      if Name.occursIn sharedAccess value then shared else fresh
    unfold Name.occursIn
    rw [Text.toList_crlf, Text.occursInChars_crlfChars (by decide) (by decide) (by decide)]

namespace Migration

variable (m : Migration)

theorem keyword_crlf (s : Site) : m.keyword s.crlf = m.keyword s := by
  cases s with
  | parameter variadic default =>
    simp only [Site.crlf, keyword, DefaultShape.ofDefault_crlf]
  | _ => rfl

theorem atSite_crlf (text : List Char) (s : Site) {a : Ascription}
    (ha : a.type.Throughout TypeExpr.InLine) :
    m.atSite s.crlf (a.crlf text) = (m.atSite s a).crlf text := by
  unfold atSite
  rw [keyword_crlf]
  cases m.keyword s with
  | none => rfl
  | some k =>
    show (⟨_, _, a.type.crlf.requalify m.rules k⟩ : Ascription) =
      ⟨_, _, (a.type.requalify m.rules k).crlf⟩
    rw [TypeExpr.requalify_crlf k a.type ha]
    rfl

/-- The types of converted declarations are qualified as those of the
declarations are. -/
theorem ascriptionsList_crlf (text : List Char) {ds : List Declaration}
    (hds : ∀ a ∈ Declaration.ascriptionsList ds, a.type.Throughout TypeExpr.InLine) :
    Declaration.ascriptionsList (m.declarations false (Declaration.crlfList text ds)) =
      (Declaration.ascriptionsList (m.declarations false ds)).map (Ascription.crlf text) := by
  rw [m.declarations_eq, m.declarations_eq, Declaration.ascriptionsList_mapSites,
    Declaration.ascriptionsList_mapSites, Declaration.sitesList_crlf, List.map_map, List.map_map]
  apply List.map_congr_left
  intro x hx
  apply m.atSite_crlf text
  exact hds x.2 (Declaration.mem_ascriptionsList_of_mem_sitesList hx)

end Migration

/-! ## Texts -/

/-- A text is cut in one way into a front part of so many bytes and the rest. -/
theorem Text.append_inj_of_byteLength {as bs as' bs' : List Char} (h : as ++ bs = as' ++ bs')
    (hlength : Text.byteLength as = Text.byteLength as') : as = as' ∧ bs = bs' := by
  have hfront := Text.takeBytes?_append as bs
  rw [h, hlength, Text.takeBytes?_append, Option.some.injEq] at hfront
  rw [hfront] at h
  exact ⟨hfront.symm, List.append_cancel_left h⟩

namespace Replaces

/-- There is one text in which the ascriptions are replaced. -/
theorem unique {offset : Nat} {as : List Ascription} {cs ds ds' : List Char}
    (h : Replaces offset as cs ds) (h' : Replaces offset as cs ds') : ds' = ds := by
  induction h generalizing ds' with
  | rest offset cs =>
    cases h' with
    | rest => rfl
  | @next offset a as A B Z Z' hstart hstop _ ih =>
    generalize hcs : A ++ B ++ Z = cs at h'
    cases h' with
    | @next _ _ _ A₁ B₁ Z₁ Z₁' hstart₁ hstop₁ hbehind₁ =>
      rw [List.append_assoc, List.append_assoc] at hcs
      obtain ⟨rfl, hrest⟩ := Text.append_inj_of_byteLength hcs (by omega)
      obtain ⟨rfl, rfl⟩ := Text.append_inj_of_byteLength hrest (by omega)
      rw [ih hbehind₁]

/-- In the conversion of a text the conversions of the ascriptions are
replaced. -/
theorem crlf (front : List Char) {cs ds : List Char} {as : List Ascription}
    (h : Replaces (Text.byteLength front) as cs ds) :
    Replaces (Text.byteLength (crlfChars front)) (as.map (Ascription.crlf (front ++ cs)))
      (crlfChars cs) (crlfChars ds) := by
  generalize hoffset : Text.byteLength front = offset at h
  induction h generalizing front with
  | rest offset cs => exact .rest _ _
  | @next offset a as A B Z Z' hstart hstop _ ih =>
    have hfront : Text.byteLength (front ++ A) = a.span.start := by
      rw [Text.byteLength_append]
      omega
    have hfront' : Text.byteLength (front ++ (A ++ B)) = a.span.stop := by
      simp only [Text.byteLength_append]
      omega
    have hA := Text.crlfOffset_byteLength (front ++ A) (B ++ Z)
    have hB := Text.crlfOffset_byteLength (front ++ (A ++ B)) Z
    have hbehind := ih _ hfront'
    have hprint := congrArg String.toList (TypeExpr.print_crlf a.type)
    rw [hfront] at hA
    rw [hfront'] at hB
    rw [Text.toList_crlf] at hprint
    simp only [Text.crlfChars_append, Text.byteLength_append, List.append_assoc] at hA hB hbehind ⊢
    generalize front ++ (A ++ (B ++ Z)) = text at hA hB hbehind ⊢
    rw [List.map_cons, ← hprint, ← List.append_assoc, ← List.append_assoc]
    refine .next (a := a.crlf text) hA ?_ ?_
    · show crlfOffset text a.span.stop = crlfOffset text a.span.start + _
      omega
    · show Replaces (crlfOffset text a.span.stop) _ _ _
      rw [hB]
      exact hbehind

end Replaces

/-! ## Files -/

namespace SourceFile

variable {text : String}

/-- A text with a token that has no end is not accepted. -/
theorem findings_of_broken (h : (TokenStream.scan text).Broken) :
    (run text).2.findings ≠ [] := by
  obtain ⟨t, ht, hopen⟩ := h
  obtain ⟨f, hf, _⟩ := Cursor.settles_of_run (pending_run text) ht hopen
  exact List.ne_nil_of_mem hf

/-- A text and its conversion are accepted together. -/
theorem findings_crlf (hfree : ¬EscapesLineFeed text.toList) :
    (run (Text.crlf text)).2.findings = [] ↔ (run text).2.findings = [] := by
  rcases TokenStream.scan_crlf hfree with ⟨hbroken, hbroken'⟩ | halike
  · have hfound := findings_of_broken hbroken
    have hfound' := findings_of_broken hbroken'
    constructor
    · exact fun h => absurd h hfound'
    · exact fun h => absurd h hfound
  · exact (Commutes.declarations (Cursor.Alike.start halike)).2.findings_iff

theorem alike_of_accepted (hfree : ¬EscapesLineFeed text.toList)
    (hrun : (run text).2.findings = []) :
    (TokenStream.scan text).Alike text.toList (TokenStream.scan (Text.crlf text)) := by
  rcases TokenStream.scan_crlf hfree with ⟨hbroken, _⟩ | halike
  · exact absurd hrun (findings_of_broken hbroken)
  · exact halike

/-- What is read from the conversion of an accepted text. -/
theorem declarations_crlf (hfree : ¬EscapesLineFeed text.toList)
    (hrun : (run text).2.findings = []) :
    (run (Text.crlf text)).1 = Declaration.crlfList text.toList (run text).1 := by
  rw [Declaration.crlfList_eq_map]
  exact (Commutes.declarations (Cursor.Alike.start (alike_of_accepted hfree hrun))).1

/-- The names in the types of an accepted text stand in one line. -/
theorem inLine_of_mem (hfree : ¬EscapesLineFeed text.toList)
    (hrun : (run text).2.findings = []) {a : Ascription}
    (ha : a ∈ Declaration.ascriptionsList (run text).1) :
    a.type.Throughout TypeExpr.InLine := by
  obtain ⟨K, s, hcut, hs, rfl⟩ := exists_chunk_of_mem hrun ha
  obtain ⟨before, behind, hpending, _⟩ := hcut.exists_place hs
  rw [s.type_eq]
  apply s.spells.inLine
  intro x hx
  obtain ⟨t, ht, rfl⟩ := List.mem_map.mp hx
  apply (alike_of_accepted hfree hrun).inLine
  simp [hpending, ht]

/-- What is written for a migrated text. -/
theorem replaces_migrated (m : Migration) (name text : String) :
    Replaces 0
      ((Declaration.ascriptionsList (m.declarations false (run text).1)).filter
        Ascription.isChanged)
      text.toList (m.file ⟨name, text, (run text).1⟩).render.toList :=
  replaces_render (asRead_migrated m (recover name text).1)

end SourceFile

namespace Migration

open SourceFile

variable (m : Migration) {text : String}

/-- The migrated conversion is the conversion of the migrated text. -/
theorem render_crlf (name : String) (hfree : ¬EscapesLineFeed text.toList)
    (hrun : (run text).2.findings = []) :
    (m.file ⟨name, Text.crlf text, (run (Text.crlf text)).1⟩).render =
      Text.crlf (m.file ⟨name, text, (run text).1⟩).render := by
  have hold := Replaces.crlf [] (replaces_migrated m name text)
  have hnew := replaces_migrated m name (Text.crlf text)
  have hchanged : Ascription.isChanged ∘ Ascription.crlf text.toList = Ascription.isChanged :=
    funext (Ascription.isChanged_crlf text.toList)
  rw [declarations_crlf hfree hrun,
    m.ascriptionsList_crlf text.toList fun a ha => inLine_of_mem hfree hrun ha,
    List.filter_map, hchanged, Text.toList_crlf] at hnew
  rw [declarations_crlf hfree hrun, ← String.toList_inj, Text.toList_crlf]
  exact hold.unique hnew

/-- Migrating commutes with the conversion of line ends, if no backslash stands
in front of a line feed, with or without signs `#` between them: a text and its
conversion are accepted together, and then the migrated conversion is the
conversion of the migrated text. -/
theorem text_crlf (name : String) (hfree : ¬EscapesLineFeed text.toList) :
    ((∃ file, parse name text = .ok file) ↔ ∃ file, parse name (Text.crlf text) = .ok file) ∧
      ∀ (m : Migration) (file : SourceFile), parse name text = .ok file →
        ∃ out, m.text name text = .ok out ∧
          m.text name (Text.crlf text) = .ok (Text.crlf out) := by
  have hfindings := findings_crlf hfree
  constructor
  · constructor
    · rintro ⟨file, hparse⟩
      obtain ⟨hrun, _⟩ := parse_eq_ok_iff.mp hparse
      exact ⟨_, parse_eq_ok_iff.mpr ⟨hfindings.mpr hrun, rfl⟩⟩
    · rintro ⟨file, hparse⟩
      obtain ⟨hrun, _⟩ := parse_eq_ok_iff.mp hparse
      exact ⟨_, parse_eq_ok_iff.mpr ⟨hfindings.mp hrun, rfl⟩⟩
  · intro m file hparse
    obtain ⟨hrun, rfl⟩ := parse_eq_ok_iff.mp hparse
    have hparse' : parse name (Text.crlf text) =
        .ok ⟨name, Text.crlf text, (run (Text.crlf text)).1⟩ :=
      parse_eq_ok_iff.mpr ⟨hfindings.mpr hrun, rfl⟩
    refine ⟨(m.file ⟨name, text, (run text).1⟩).render, ?_, ?_⟩
    · rw [Migration.text, hparse]
      rfl
    · rw [Migration.text, hparse', ← m.render_crlf name hfree hrun]
      rfl

/-- A comment, a default value and a type over several lines, in a text with
three changed types. -/
theorem text_crlf_of_lines :
    let text := "func f(_ a: P? = g(\"\"\"\n \\\\ x\n \"\"\"), // a\n  b: (x: P,\n y: [P\n])) /*\n */ -> P {}\nvar c: Q"
    let m : Migration := ⟨fun n => n == "P", ⟨.strict, false⟩⟩
    ¬EscapesLineFeed text.toList ∧ (∃ file, parse "f" (Text.crlf text) = .ok file) ∧
      ∃ out, m.text "f" text = .ok out ∧ out ≠ text ∧
        m.text "f" (Text.crlf text) = .ok (Text.crlf out) := by
  intro text m
  have hfree : ¬EscapesLineFeed text.toList := by decide +kernel
  have hparse : parse "f" text = .ok ⟨"f", text, (run text).1⟩ :=
    parse_eq_ok_iff.mpr ⟨by decide +kernel, rfl⟩
  obtain ⟨haccepted, hmigrated⟩ := text_crlf "f" hfree
  obtain ⟨out, hout, hout'⟩ := hmigrated m _ hparse
  refine ⟨hfree, haccepted.mp ⟨_, hparse⟩, out, hout, ?_, hout'⟩
  rintro rfl
  rw [Migration.text, hparse] at hout
  have hsame : (m.file _).render = text := Except.ok.inj hout
  rw [render_migrated hparse m] at hsame
  exact absurd hsame (by decide +kernel)

end Migration

end AnySome
