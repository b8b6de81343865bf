import AnySome.Proofs.Migration.Sites
import AnySome.Proofs.Rewrite.Order

/-!
# Writing back loses nothing

A file is written back by copying its text up to each changed ascription and
putting the new type in the place of the old one. An ascription that starts
before the last one ended, or ends inside a character, would be passed over
without a word. The order of ascriptions excludes that: every changed type of
a file is written, and everything between them stays.

What the text must become is said without the splicing that makes it
(`Replaces`): the old and the new text are cut at the same ascriptions, they
agree in front of, between and behind them, and each ascription is its old
text here and its new type there.

## Main results

* `SourceFile.ordered_recover` — the ascriptions of every text are in order.
* `SourceFile.replaces_splice` — splicing replaces every ascription it is
  given.
* `SourceFile.render_replaces_changed_types` — writing back replaces the
  changed ascriptions and nothing else.
-/

namespace AnySome

/-! ## Files that differ in types -/

/-- The ascription with the type that was read. -/
def Ascription.asRead (a : Ascription) : Ascription := { a with type := a.parsed }

namespace SourceFile

/-- The file with the types that were read. Two files that are equal as read
differ in the types of their ascriptions at most. -/
def asRead (f : SourceFile) : SourceFile :=
  { f with
    declarations := Declaration.mapSitesList (fun _ => Ascription.asRead) false f.declarations }

theorem ascriptionsList_asRead (f : SourceFile) :
    Declaration.ascriptionsList f.asRead.declarations =
      (Declaration.ascriptionsList f.declarations).map Ascription.asRead := by
  rw [asRead, Declaration.ascriptionsList_mapSites,
    Declaration.ascriptionsList_eq_sites false f.declarations, List.map_map]
  rfl

theorem spans_eq_of_asRead {f g : SourceFile} (h : f.asRead = g.asRead) :
    (Declaration.ascriptionsList f.declarations).map Ascription.span =
      (Declaration.ascriptionsList g.declarations).map Ascription.span := by
  have hread : Declaration.ascriptionsList f.asRead.declarations =
      Declaration.ascriptionsList g.asRead.declarations := by rw [h]
  rw [ascriptionsList_asRead, ascriptionsList_asRead] at hread
  have hspans := congrArg (List.map Ascription.span) hread
  rw [List.map_map, List.map_map] at hspans
  exact hspans

/-- A migration changes types only. -/
theorem asRead_migrated (m : Migration) (f : SourceFile) : (m.file f).asRead = f.asRead := by
  have hsite : ∀ s a, (m.atSite s a).asRead = a.asRead := by
    intro s a
    rw [m.atSite_eq]
    rfl
  unfold asRead
  rw [m.declarations_file, Declaration.mapSitesList_mapSitesList]
  simp only [hsite]
  rfl

end SourceFile

namespace Migration

open SourceFile

variable {name text : String} {file : SourceFile}

/-- The ascriptions of a migrated file are those of the file that was read, with
other types. -/
theorem map_asRead_ascriptionsList_file (hparse : parse name text = .ok file) (m : Migration) :
    (Declaration.ascriptionsList (m.file file).declarations).map Ascription.asRead =
      Declaration.ascriptionsList file.declarations := by
  have hread : ∀ a ∈ Declaration.ascriptionsList file.declarations, a.asRead = id a := by
    rintro ⟨span, parsed, type⟩ ha
    obtain rfl : type = parsed := type_eq_parsed hparse ha
    rfl
  rw [← ascriptionsList_asRead, asRead_migrated, ascriptionsList_asRead,
    List.map_congr_left hread, List.map_id]

/-- Each ascription of a migrated file comes from one of the file that was read,
which had its type qualified for its site. -/
theorem exists_atSite_of_mem (hparse : parse name text = .ok file) (m : Migration)
    {a : Ascription} (ha : a ∈ Declaration.ascriptionsList (m.file file).declarations) :
    ∃ x ∈ Declaration.sitesList false file.declarations,
      a = m.atSite x.1 x.2 ∧ x.2.type = a.parsed := by
  rw [m.declarations_file, Declaration.ascriptionsList_mapSites] at ha
  obtain ⟨x, hx, rfl⟩ := List.mem_map.mp ha
  refine ⟨x, hx, rfl, ?_⟩
  rw [m.atSite_eq]
  exact type_eq_parsed hparse (Declaration.mem_ascriptionsList_of_mem_sitesList hx)

end Migration

/-! ## Replaced stretches of a text -/

/-- From byte `offset` on, the second text is the first with every ascription
in its new form: in front of the ascription both texts agree, and the stretch
that its span covers is replaced by its type in canonical form. -/
inductive Replaces : Nat → List Ascription → List Char → List Char → Prop
  | rest (offset : Nat) (cs : List Char) : Replaces offset [] cs cs
  | next {offset : Nat} {a : Ascription} {as : List Ascription} {A B Z Z' : List Char}
      (start_eq : a.span.start = offset + Text.byteLength A)
      (stop_eq : a.span.stop = a.span.start + Text.byteLength B)
      (behind : Replaces a.span.stop as Z Z') :
      Replaces offset (a :: as) (A ++ B ++ Z) (A ++ a.type.print.toList ++ Z')

namespace Strung

variable {cs : List Char} {lo hi : Nat} {as bs : List Ascription}

/-- The order is one of spans. -/
theorem of_spans (h : Strung cs lo hi as) (hspans : bs.map Ascription.span = as.map Ascription.span) :
    Strung cs lo hi bs := by
  induction as generalizing lo bs with
  | nil =>
    rw [List.map_nil, List.map_eq_nil_iff] at hspans
    subst hspans
    exact h
  | cons a as ih =>
    obtain ⟨b, bs, rfl, hspan, hrest⟩ := List.map_eq_cons_iff.mp hspans
    obtain ⟨hlo, hmarks, has⟩ := h
    rw [← hspan] at hlo has
    refine ⟨hlo, ⟨?_, ?_, ?_⟩, ih has hrest⟩
    · rw [hspan]
      exact hmarks.start_le_stop
    · rw [hspan]
      exact hmarks.start
    · rw [hspan]
      exact hmarks.stop

theorem filter (h : Strung cs lo hi as) (p : Ascription → Bool) :
    Strung cs lo hi (as.filter p) := by
  induction as generalizing lo with
  | nil => exact h
  | cons a as ih =>
    obtain ⟨hlo, hmarks, has⟩ := h
    rw [List.filter_cons]
    split
    · exact ⟨hlo, hmarks, ih has⟩
    · have hspan := hmarks.start_le_stop
      exact (ih has).of_le (by omega)

end Strung

namespace SourceFile

/-- Splicing replaces every ascription, if they are in order. -/
theorem replaces_splice {cs R rest : List Char} {lo : Nat} {as : List Ascription}
    (hcs : cs = R ++ rest) (hlo : Text.byteLength R ≤ lo)
    (h : Strung cs lo (Text.byteLength cs) as) :
    Replaces (Text.byteLength R) as rest
      (splice (Text.byteLength cs) (Text.byteLength R) rest as) := by
  induction as generalizing R rest lo with
  | nil => exact .rest _ _
  | cons a as ih =>
    obtain ⟨hstart, hmarks, has⟩ := h
    have hspan := hmarks.start_le_stop
    -- The text in front of the ascription, and the ascription itself.
    obtain ⟨A, rest', rfl, hA⟩ : ∃ A B, rest = A ++ B ∧
        a.span.start = Text.byteLength R + Text.byteLength A := by
      apply Text.IsBoundary.exists_front
      · rw [← hcs]
        exact hmarks.start
      · omega
    obtain ⟨B, Z, rfl, hB⟩ : ∃ B Z, rest' = B ++ Z ∧
        a.span.stop = Text.byteLength (R ++ A) + Text.byteLength B := by
      apply Text.IsBoundary.exists_front
      · rw [List.append_assoc, ← hcs]
        exact hmarks.stop
      · rw [Text.byteLength_append]
        omega
    rw [← List.append_assoc] at hcs ⊢
    rw [Text.byteLength_append] at hB
    have hstop : a.span.stop = Text.byteLength (R ++ (A ++ B)) := by
      simp only [Text.byteLength_append]
      omega
    rw [splice_cons hA (by rw [Text.byteLength_append]; omega) hmarks.stop.le]
    refine .next hA (by omega) ?_
    rw [hstop] at has ⊢
    exact ih (by rw [hcs]; simp) (Nat.le_refl _) has

/-! ## Every text -/

/-- The ascriptions of a file stand in its text one behind the other, from
character to character, and in the order in which they are listed. -/
structure Ordered (f : SourceFile) : Prop where
  pairwise : (Declaration.ascriptionsList f.declarations).Pairwise fun a b =>
    a.span.start < b.span.start ∧ a.span.stop ≤ b.span.start
  start_le_stop : ∀ a ∈ Declaration.ascriptionsList f.declarations,
    a.span.start ≤ a.span.stop
  stop_le : ∀ a ∈ Declaration.ascriptionsList f.declarations,
    a.span.stop ≤ Text.byteLength f.text.toList
  boundaries : ∀ a ∈ Declaration.ascriptionsList f.declarations,
    Text.IsBoundary f.text.toList a.span.start ∧ Text.IsBoundary f.text.toList a.span.stop
  sorted : f.ascriptions = Declaration.ascriptionsList f.declarations

/-- The ascriptions of every text are in order, also where it is rejected. -/
theorem ordered_recover (name text : String) : (recover name text).1.Ordered := by
  obtain ⟨lo, hstrung⟩ := strung_recover name text
  refine ⟨hstrung.pairwise, ?_, ?_, ?_, ?_⟩
  · intro a ha
    exact (hstrung.of_mem ha).2.1.start_le_stop
  · intro a ha
    exact (hstrung.of_mem ha).2.2
  · intro a ha
    have hmarks := (hstrung.of_mem ha).2.1
    exact ⟨hmarks.start, hmarks.stop⟩
  · apply sortByStart_eq_self
    exact hstrung.pairwise.imp fun h => h.1

/-- Changing types changes no order. -/
theorem ascriptions_of_asRead {name text : String} {f : SourceFile}
    (hf : f.asRead = (recover name text).1.asRead) :
    f.ascriptions = Declaration.ascriptionsList f.declarations := by
  obtain ⟨lo, hstrung⟩ := strung_recover name text
  have hspans := hstrung.of_spans (spans_eq_of_asRead hf)
  apply sortByStart_eq_self
  exact hspans.pairwise.imp fun h => h.1

/-- What is written for a file that differs from the one that was read in the
types of its ascriptions: nothing has to be sorted for it. -/
theorem render_of_asRead {name text : String} {f : SourceFile}
    (hf : f.asRead = (recover name text).1.asRead) :
    f.render = String.ofList (splice (Text.byteLength f.text.toList) 0 f.text.toList
      ((Declaration.ascriptionsList f.declarations).filter Ascription.isChanged)) := by
  unfold render
  dsimp only
  rw [ascriptions_of_asRead hf]

theorem render_migrated {name text : String} {file : SourceFile}
    (hparse : parse name text = .ok file) (m : Migration) :
    (m.file file).render = String.ofList (splice (Text.byteLength text.toList) 0 text.toList
      ((Declaration.ascriptionsList (m.file file).declarations).filter Ascription.isChanged)) := by
  obtain ⟨_, rfl⟩ := parse_eq_ok_iff.mp hparse
  exact render_of_asRead (asRead_migrated m (recover name text).1)

/-- In it the types of the changed ascriptions are replaced. -/
theorem replaces_render {name text : String} {f : SourceFile}
    (hf : f.asRead = (recover name text).1.asRead) :
    Replaces 0 ((Declaration.ascriptionsList f.declarations).filter Ascription.isChanged)
      text.toList f.render.toList := by
  have htext : f.text = text := congrArg SourceFile.text hf
  obtain ⟨lo, hstrung⟩ := strung_recover name text
  have hspans := hstrung.of_spans (spans_eq_of_asRead hf)
  rw [render_of_asRead hf, htext, String.toList_ofList]
  exact replaces_splice (R := []) rfl (Nat.zero_le lo) (hspans.filter _)

/-- Writing a file back replaces the types that were changed and keeps the
rest of its text. Whatever a text holds, its ascriptions are in order; where it
is accepted none of them is empty, and every file that differs from it in the
types of its ascriptions only is written with all its changes. -/
theorem render_replaces_changed_types (name text : String) :
    (recover name text).1.Ordered ∧
      ∀ file, parse name text = .ok file →
        (∀ a ∈ Declaration.ascriptionsList file.declarations, a.span.start < a.span.stop) ∧
        (∀ m : Migration, (m.file file).asRead = file.asRead) ∧
        ∀ f : SourceFile, f.asRead = file.asRead →
          Replaces 0 ((Declaration.ascriptionsList f.declarations).filter Ascription.isChanged)
              text.toList f.render.toList ∧
            ((Declaration.ascriptionsList f.declarations).filter Ascription.isChanged).length =
              f.changedCount := by
  refine ⟨ordered_recover name text, ?_⟩
  intro file hparse
  refine ⟨fun a ha => start_lt_stop hparse ha, fun m => asRead_migrated m file, ?_⟩
  intro f hf
  obtain ⟨_, rfl⟩ := parse_eq_ok_iff.mp hparse
  refine ⟨replaces_render hf, ?_⟩
  rw [changedCount, List.countP_eq_length_filter]

/-- Two entries of a variable declaration, of which one is migrated, between
characters of more than one byte. -/
theorem render_replaces_changed_types_of_two_entries :
    let text := "let é: P?, b: Q = ü"
    let file : SourceFile := ⟨"f", text, (run text).1⟩
    let f := (⟨fun n => n == "P", ⟨.strict, false⟩⟩ : Migration).file file
    parse "f" text = .ok file ∧ f.asRead = file.asRead ∧ f.changedCount = 1 ∧
      Replaces 0 ((Declaration.ascriptionsList f.declarations).filter Ascription.isChanged)
        text.toList f.render.toList := by
  intro text file f
  have hparse : parse "f" text = .ok file := parse_eq_ok_iff.mpr ⟨by decide +kernel, rfl⟩
  obtain ⟨_, hmigrated, hrender⟩ := (render_replaces_changed_types "f" text).2 file hparse
  exact ⟨hparse, hmigrated _, by decide +kernel, (hrender f (hmigrated _)).1⟩

end SourceFile

end AnySome
