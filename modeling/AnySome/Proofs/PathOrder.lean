import AnySome.Project.Discovery
import AnySome.Report.Basic

/-!
# Discovery order is path order

A walk lists the source files of a folder depth first, the entries of each
folder by name. A report lists its outcomes by path, compared part by part.
The two orders are the same, although they are defined on different things:
the walk compares names of siblings, the report compares whole paths.

The bridge is `Path.parts_join`: going down to an entry appends one part to
the parts of a path. Below one folder the parts of two found files first
differ at the names of two siblings, and there the order of the walk decides.

Comparing paths as texts would be a different order: `a/x.swift` comes before
`a.swift` here, because `a` comes before `a.swift`, but `.` comes before `/`.

## Main results

* `Path.partsBefore_trans`, `Path.partsBefore_trichotomy` — parts are ordered
  strictly and totally.
* `Path.parts_join` — the parts of an entry's path.
* `Discovery.pairwise_before_discover` — found files are strictly ascending by
  path.
* `Report.sortByPath_eq_of_perm` — sorting brings outcomes back into the order
  of any strictly ascending arrangement of them.
-/

namespace AnySome

/-! ## The order of parts -/

namespace PathPart

/-- A part is determined by its kind and its text. -/
theorem eq_of_rank_of_text {a b : PathPart} (hrank : a.rank = b.rank) (htext : a.text = b.text) :
    a = b := by
  cases a <;> cases b <;> simp_all [rank, text]

theorem before_iff {a b : PathPart} :
    a.before b = true ↔ a.rank < b.rank ∨ (a.rank = b.rank ∧ a.text < b.text) := by
  simp [before]

theorem before_irrefl (a : PathPart) : a.before a = false := by
  simp [before]

theorem before_trans {a b c : PathPart} (hab : a.before b = true) (hbc : b.before c = true) :
    a.before c = true := by
  rw [before_iff] at hab hbc ⊢
  rcases hab with hab | ⟨hab, htext⟩
  · left
    rcases hbc with hbc | ⟨hbc, -⟩ <;> omega
  · rcases hbc with hbc | ⟨hbc, htext'⟩
    · left
      omega
    · exact Or.inr ⟨hab.trans hbc, String.lt_trans htext htext'⟩

/-- Of two different parts one comes first. -/
theorem before_trichotomy (a b : PathPart) :
    a.before b = true ∨ a = b ∨ b.before a = true := by
  simp only [before_iff]
  rcases Nat.lt_trichotomy a.rank b.rank with h | h | h
  · exact Or.inl (Or.inl h)
  · by_cases hab : a.text < b.text
    · exact Or.inl (Or.inr ⟨h, hab⟩)
    by_cases hba : b.text < a.text
    · exact Or.inr (Or.inr (Or.inr ⟨h.symm, hba⟩))
    have htext : a.text = b.text :=
      String.le_antisymm (String.not_lt.mp hba) (String.not_lt.mp hab)
    exact Or.inr (Or.inl (eq_of_rank_of_text h htext))
  · exact Or.inr (Or.inr (Or.inl h))

/-- Names are ordered as texts. -/
theorem before_name_iff {m n : String} : (name m).before (name n) = true ↔ m < n := by
  simp [before_iff, rank, text]

end PathPart

namespace Path

theorem partsBefore_irrefl (p : List PathPart) : partsBefore p p = false := by
  induction p with
  | nil => rfl
  | cons a p ih => simp [partsBefore, PathPart.before_irrefl, ih]

theorem partsBefore_trans {p q r : List PathPart} (hpq : partsBefore p q = true)
    (hqr : partsBefore q r = true) : partsBefore p r = true := by
  induction p generalizing q r with
  | nil =>
    cases r with
    | nil => cases q <;> simp [partsBefore] at hqr
    | cons c r => rfl
  | cons a p ih =>
    cases q with
    | nil => simp [partsBefore] at hpq
    | cons b q =>
      cases r with
      | nil => simp [partsBefore] at hqr
      | cons c r =>
        simp only [partsBefore, Bool.or_eq_true, Bool.and_eq_true, beq_iff_eq] at hpq hqr ⊢
        rcases hpq with hab | ⟨rfl, hpq⟩
        · rcases hqr with hbc | ⟨rfl, -⟩
          · exact Or.inl (PathPart.before_trans hab hbc)
          · exact Or.inl hab
        · rcases hqr with hbc | ⟨rfl, hqr⟩
          · exact Or.inl hbc
          · exact Or.inr ⟨rfl, ih hpq hqr⟩

/-- Of two different lists of parts one comes first. -/
theorem partsBefore_trichotomy (p q : List PathPart) :
    partsBefore p q = true ∨ p = q ∨ partsBefore q p = true := by
  induction p generalizing q with
  | nil => cases q <;> simp [partsBefore]
  | cons a p ih =>
    cases q with
    | nil => simp [partsBefore]
    | cons b q =>
      simp only [partsBefore, Bool.or_eq_true, Bool.and_eq_true, beq_iff_eq, List.cons.injEq]
      rcases PathPart.before_trichotomy a b with hab | rfl | hba
      · exact Or.inl (Or.inl hab)
      · rcases ih q with h | rfl | h
        · exact Or.inl (Or.inr ⟨rfl, h⟩)
        · exact Or.inr (Or.inl ⟨rfl, rfl⟩)
        · exact Or.inr (Or.inr (Or.inr ⟨rfl, h⟩))
      · exact Or.inr (Or.inr (Or.inl hba))

/-- Parts in common at the start do not matter. -/
theorem partsBefore_append_left (common p q : List PathPart) :
    partsBefore (common ++ p) (common ++ q) = partsBefore p q := by
  induction common with
  | nil => rfl
  | cons a common ih => simp [partsBefore, PathPart.before_irrefl, ih]

/-! ## Going down to an entry -/

/-- What the entry of a folder can be called. -/
structure IsEntryName (name : String) : Prop where
  ne_empty : name ≠ ""
  ne_here : name ≠ "."
  ne_up : name ≠ ".."
  no_slash : '/' ∉ name.toList

instance (name : String) : Decidable (IsEntryName name) :=
  decidable_of_iff (name ≠ "" ∧ name ≠ "." ∧ name ≠ ".." ∧ '/' ∉ name.toList)
    ⟨fun ⟨h1, h2, h3, h4⟩ => ⟨h1, h2, h3, h4⟩, fun ⟨h1, h2, h3, h4⟩ => ⟨h1, h2, h3, h4⟩⟩

/-- A text without slashes is one piece. -/
theorem splitSlashes_of_no_slash {cs : List Char} (h : '/' ∉ cs) : splitSlashes cs = [cs] := by
  induction cs with
  | nil => rfl
  | cons c cs ih =>
    simp only [List.mem_cons, not_or] at h
    simp only [splitSlashes, ih h.2]
    rw [if_neg (fun heq => h.1 heq.symm)]

/-- A slash divides a text wherever it stands. -/
theorem splitSlashes_append_slash (front back : List Char) :
    splitSlashes (front ++ '/' :: back) = splitSlashes front ++ splitSlashes back := by
  induction front with
  | nil => simpa [splitSlashes] using splitSlashes_append back (by simp : '/' ∉ ([] : List Char))
  | cons c front ih =>
    obtain ⟨part, parts, hparts⟩ := List.exists_cons_of_ne_nil (splitSlashes_ne_nil front)
    have hlong : splitSlashes (front ++ '/' :: back) = part :: (parts ++ splitSlashes back) := by
      rw [ih, hparts, List.cons_append]
    simp only [List.cons_append, splitSlashes, hparts, hlong]
    split <;> rfl

/-- The pieces of a path that ends with a slash, before a name or not. -/
private theorem pieces_append_name {folder name : String} (hlast : folder.toList.getLast? = some '/')
    (hname : '/' ∉ name.toList) :
    ∃ front, pieces folder = front ++ [""] ∧ pieces (folder ++ name) = front ++ [name] := by
  obtain ⟨front, hfront⟩ := List.getLast?_eq_some_iff.mp hlast
  refine ⟨(splitSlashes front).map String.ofList, ?_, ?_⟩
  · simp [pieces, hfront, splitSlashes_append_slash, splitSlashes]
  · have happ : (folder ++ name).toList = front ++ '/' :: name.toList := by
      simp [hfront]
    simp [pieces, happ, splitSlashes_append_slash, splitSlashes_of_no_slash hname]

/-- The pieces of a path that a slash and a name follow. -/
private theorem pieces_append_slash_name (folder : String) {name : String} (hname : '/' ∉ name.toList) :
    pieces (folder ++ "/" ++ name) = pieces folder ++ [name] := by
  have happ : (folder ++ "/" ++ name).toList = folder.toList ++ '/' :: name.toList := by
    simp
  simp [pieces, happ, splitSlashes_append_slash, splitSlashes_of_no_slash hname]

theorem partOf?_entryName {name : String} (h : IsEntryName name) :
    partOf? name = some (.name name) := by
  simp [partOf?, h.ne_empty, h.ne_here, h.ne_up]

/-- The parts of two paths of which the second has one more piece, a name, at
its end; an empty piece at the end of the first does not count. -/
private theorem parts_snoc {p q name : String} {front back : List String} (h : IsEntryName name)
    (hp : pieces p = front ++ back) (hback : back = [] ∨ back = [""])
    (hq : pieces q = front ++ [name]) (habs : isAbsolute q = isAbsolute p)
    (hne : front ≠ []) : parts q = parts p ++ [.name name] := by
  have hhead : (pieces q).head? = (pieces p).head? := by
    cases front with
    | nil => exact absurd rfl hne
    | cons piece front => simp [hp, hq]
  have hempty : partOf? "" = none := by simp [partOf?]
  have hinner : (pieces q).filterMap partOf? = (pieces p).filterMap partOf? ++ [.name name] := by
    rcases hback with rfl | rfl <;> simp [hp, hq, partOf?_entryName h, hempty]
  unfold parts
  simp only [hhead, habs, hinner]
  split
  · rfl
  · split <;> rfl

theorem IsEntryName.isAbsolute_eq {name : String} (h : IsEntryName name) :
    isAbsolute name = false := by
  rw [Bool.eq_false_iff]
  intro habs
  rw [isAbsolute, beq_iff_eq] at habs
  exact h.no_slash (List.mem_of_mem_head? habs)

/-- Going down to an entry puts its name behind the pieces, of which an empty
one at the end gives way. -/
theorem pieces_join {folder name : String} (hfolder : folder ≠ "") (h : IsEntryName name) :
    ∃ front back, pieces folder = front ++ back ∧ (back = [] ∨ back = [""]) ∧ front ≠ [] ∧
      pieces (join folder name) = front ++ [name] ∧
      isAbsolute (join folder name) = isAbsolute folder := by
  have htoList : folder.toList ≠ [] := by
    intro hnil
    exact hfolder (by simpa using hnil)
  have hempty : folder.isEmpty = false := by
    rw [Bool.eq_false_iff]
    intro hemp
    exact hfolder (by simpa using hemp)
  obtain ⟨c, cs, hcs⟩ := List.exists_cons_of_ne_nil htoList
  unfold join
  simp only [h.isAbsolute_eq, hempty, Bool.or_self, Bool.false_eq_true, ↓reduceIte]
  split
  next hlast =>
    have hslash : folder.toList.getLast? = some '/' := by simpa using hlast
    obtain ⟨front, hp, hq⟩ := pieces_append_name hslash h.no_slash
    refine ⟨front, [""], hp, .inr rfl, ?_, hq, by simp [isAbsolute, hcs]⟩
    -- a lone slash has two empty pieces
    rintro rfl
    obtain ⟨init, hinit⟩ := List.getLast?_eq_some_iff.mp hslash
    simp [pieces, hinit, splitSlashes_append_slash, splitSlashes] at hp
    exact splitSlashes_ne_nil init hp
  next hlast =>
    refine ⟨pieces folder, [], (List.append_nil _).symm, .inl rfl, ?_,
      pieces_append_slash_name folder h.no_slash, by simp [isAbsolute, hcs]⟩
    simpa [pieces] using splitSlashes_ne_nil folder.toList

/-- Going down to an entry appends its name to the parts. -/
theorem parts_join {name : String} (folder : String) (h : IsEntryName name) :
    parts (join folder name) = parts folder ++ [.name name] := by
  by_cases hfolder : folder = ""
  · -- the walk starts at no folder at all: the name is the whole path
    have hpieces : pieces name = [name] := by
      simp [pieces, splitSlashes_of_no_slash h.no_slash]
    have hnone : parts "" = [] := by decide +kernel
    have hjoin : join "" name = name := by
      unfold join
      simp
    rw [hfolder, hjoin, hnone, parts]
    simp [hpieces, h.isAbsolute_eq, h.ne_here, partOf?_entryName h]
  · obtain ⟨front, back, hp, hback, hne, hq, habs⟩ := pieces_join hfolder h
    exact parts_snoc h hp hback hq habs hne

end Path

/-! ## The order of a walk -/

namespace FileTree

mutual
/-- Below every folder, entries have proper names, strictly ascending. -/
def WellFormed : FileTree → Prop
  | .file _ => True
  | .folder entries => (entries.map Prod.fst).Pairwise (· < ·) ∧ WellFormedEntries entries

/-- The entries of a folder have proper names and are well formed. -/
def WellFormedEntries : List (String × FileTree) → Prop
  | [] => True
  | (name, entry) :: entries =>
    Path.IsEntryName name ∧ WellFormed entry ∧ WellFormedEntries entries
end

end FileTree

namespace Discovery

/-- The files of a walk lie below its entry, and are strictly ascending. -/
structure Ascends (above : List PathPart) (found : List FoundFile) : Prop where
  below : ∀ f ∈ found, ∃ rest, Path.parts f.path = above ++ rest
  ascending : found.Pairwise fun f g => Path.before f.path g.path = true

/-- What lies below one name comes before what lies below a later name. -/
theorem before_of_name_lt {above r s : List PathPart} {p q m n : String} (hmn : m < n)
    (hp : Path.parts p = above ++ [.name m] ++ r) (hq : Path.parts q = above ++ [.name n] ++ s) :
    Path.before p q = true := by
  have hname : (PathPart.name m).before (.name n) = true := PathPart.before_name_iff.mpr hmn
  rw [Path.before, hp, hq, List.append_assoc, List.append_assoc, Path.partsBefore_append_left]
  simp [Path.partsBefore, hname]

mutual
/-- A walk below `path` finds strictly ascending files below it. -/
theorem ascends_walk (excluded : List String) (path name : String) :
    ∀ t : FileTree, t.WellFormed → Ascends (Path.parts path) (walk excluded path name t)
  | .file contents, _ => by
    unfold walk
    split
    · exact ⟨by simp, by simp⟩
    · exact ⟨by simp, by simp⟩
  | .folder entries, hwf => by
    rw [FileTree.WellFormed] at hwf
    have hwalk := ascends_walkEntries excluded path entries hwf.2 hwf.1
    rw [walk]
    exact ⟨fun f hf => ⟨_, (hwalk.1 f hf).choose_spec.choose_spec.2⟩, hwalk.2⟩

/-- A walk over the entries of the folder at `path` finds strictly ascending
files, each below one of the entries. -/
theorem ascends_walkEntries (excluded : List String) (path : String) :
    ∀ entries : List (String × FileTree), FileTree.WellFormedEntries entries →
      (entries.map Prod.fst).Pairwise (· < ·) →
      (∀ f ∈ walkEntries excluded path entries, ∃ name rest, name ∈ entries.map Prod.fst ∧
        Path.parts f.path = Path.parts path ++ ([.name name] ++ rest)) ∧
      (walkEntries excluded path entries).Pairwise fun f g => Path.before f.path g.path = true
  | [], _, _ => by simp [walkEntries]
  | (name, entry) :: entries, hwf, hsorted => by
    rw [FileTree.WellFormedEntries] at hwf
    obtain ⟨hname, hentry, hentries⟩ := hwf
    rw [List.map_cons, List.pairwise_cons] at hsorted
    obtain ⟨hbelow, hascending⟩ :=
      ascends_walkEntries excluded path entries hentries hsorted.2
    have hfirst := ascends_walk excluded (Path.join path name) name entry hentry
    rw [Path.parts_join path hname] at hfirst
    -- a pruned entry contributes nothing, which ascends as well
    have hhead : Ascends (Path.parts path ++ [.name name])
        (if isPruned excluded name entry then []
          else walk excluded (Path.join path name) name entry) := by
      split
      · exact ⟨by simp, by simp⟩
      · exact hfirst
    rw [walkEntries]
    refine ⟨fun f hf => ?_, List.pairwise_append.mpr ⟨hhead.ascending, hascending, ?_⟩⟩
    · rcases List.mem_append.mp hf with hf | hf
      · obtain ⟨rest, hrest⟩ := hhead.below f hf
        exact ⟨name, rest, by simp, by rw [hrest, List.append_assoc]⟩
      · obtain ⟨other, rest, hmem, hrest⟩ := hbelow f hf
        exact ⟨other, rest, List.mem_cons_of_mem _ hmem, hrest⟩
    · intro f hf g hg
      obtain ⟨r, hr⟩ := hhead.below f hf
      obtain ⟨other, s, hmem, hs⟩ := hbelow g hg
      exact before_of_name_lt (hsorted.1 other hmem) hr (by rw [hs, List.append_assoc])
end

/-- Found files are strictly ascending by path. -/
theorem pairwise_before_discover {root : String} {excluded : List String}
    {found : Option FileTree} {files : List FoundFile} (hwf : ∀ t ∈ found, t.WellFormed)
    (h : discover root excluded found = .ok files) :
    files.Pairwise fun f g => Path.before f.path g.path = true := by
  unfold discover at h
  split at h
  · contradiction
  · contradiction
  next entries =>
    cases h
    have htree := hwf _ rfl
    rw [FileTree.WellFormed] at htree
    exact (ascends_walkEntries excluded root entries htree.2 htree.1).2

end Discovery

/-! ## The order of a report -/

namespace Report

/-- Sorting loses and adds nothing. -/
theorem perm_sortByPath (os : List Outcome) : (sortByPath os).Perm os :=
  List.mergeSort_perm os _

/-- The path of `p` does not come after that of `q`. -/
def NotAfter (p q : Outcome) : Prop := Path.before q.path p.path = false

theorem notAfter_iff {p q : Outcome} :
    (!Path.before q.path p.path) = true ↔ NotAfter p q := by
  rw [Bool.not_eq_true', NotAfter]

theorem NotAfter.trans {p q r : Outcome} (hpq : NotAfter p q) (hqr : NotAfter q r) :
    NotAfter p r := by
  unfold NotAfter Path.before at *
  rw [Bool.eq_false_iff] at *
  intro hrp
  rcases Path.partsBefore_trichotomy (Path.parts q.path) (Path.parts r.path) with h | h | h
  · exact hpq (Path.partsBefore_trans h hrp)
  · exact hpq (h ▸ hrp)
  · exact hqr h

theorem notAfter_of_before {p q : Outcome} (h : Path.before p.path q.path = true) :
    NotAfter p q := by
  unfold NotAfter Path.before at *
  rw [Bool.eq_false_iff]
  intro hqp
  have hself := Path.partsBefore_trans h hqp
  rw [Path.partsBefore_irrefl] at hself
  contradiction

/-- Of two outcomes one does not come after the other. -/
theorem notAfter_total (p q : Outcome) : NotAfter p q ∨ NotAfter q p := by
  rcases Path.partsBefore_trichotomy (Path.parts p.path) (Path.parts q.path) with h | h | h
  · exact .inl (notAfter_of_before h)
  · exact .inl (by rw [NotAfter, Path.before, h, Path.partsBefore_irrefl])
  · exact .inr (notAfter_of_before h)

theorem pairwise_sortByPath (os : List Outcome) : (sortByPath os).Pairwise NotAfter := by
  refine (List.pairwise_mergeSort ?_ ?_ os).imp notAfter_iff.mp
  · intro p q r hpq hqr
    exact notAfter_iff.mpr ((notAfter_iff.mp hpq).trans (notAfter_iff.mp hqr))
  · intro p q
    rw [Bool.or_eq_true, notAfter_iff, notAfter_iff]
    exact notAfter_total p q

/-- Sorting brings outcomes back into the order of any strictly ascending
arrangement of them. -/
theorem sortByPath_eq_of_perm {os sorted : List Outcome} (hperm : os.Perm sorted)
    (hsorted : sorted.Pairwise fun p q => Path.before p.path q.path = true) :
    sortByPath os = sorted := by
  have hall := (perm_sortByPath os).trans hperm
  refine List.Perm.eq_of_pairwise ?_ (pairwise_sortByPath os)
    (hsorted.imp notAfter_of_before) hall
  -- two entries of a strictly ascending list that are not in order are the same
  have hsame : sorted.Pairwise fun p q => NotAfter p q → NotAfter q p → p = q := by
    refine hsorted.imp ?_
    intro p q hbefore _ hqp
    rw [NotAfter, hbefore] at hqp
    contradiction
  have hflip : sorted.Pairwise fun p q => NotAfter q p → NotAfter p q → q = p := by
    refine hsorted.imp ?_
    intro p q hbefore hqp _
    rw [NotAfter, hbefore] at hqp
    contradiction
  intro p q hp hq
  exact List.Pairwise.forall_of_forall_of_flip (fun _ _ _ _ => rfl) hsame hflip
    (hall.mem_iff.mp hp) hq

end Report

end AnySome
