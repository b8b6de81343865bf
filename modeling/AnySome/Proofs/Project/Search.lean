import AnySome.Proofs.Project.WriteBack

/-!
# Which files discovery finds

The walk looks at one entry at a time. It leaves an entry out for its own name,
and with it everything below, and never sees a whole path. What it finds can
still be told from whole paths: a file is found if the last of the names that
lead to it is that of a source file, none of them is hidden, and none but the
last is excluded (`Discovery.IsSought`). The last name belongs to a file, to
which exclusion does not apply, and the folder at which the walk starts is not
among the names at all.

Siblings have different names, so the names that lead to a file are the only
ones that do, and no file is found twice.

## Main results

* `Path.isSourceName_iff` — the names of source files.
* `Discovery.mem_walkEntries_iff` — what a walk over the entries of a folder
  finds.
* `Discovery.discover_exactly` — discovery finds what is sought, in order.
-/

namespace AnySome

/-! ## Names -/

namespace Path

/-- The name of a source file ends with the extension, and has something in
front of its dot. -/
theorem isSourceName_iff {name : String} :
    isSourceName name = true ↔ ∃ stem, stem ≠ "" ∧ name = stem ++ ".swift" := by
  unfold isSourceName
  dsimp only
  constructor
  · intro h
    have hsplit := List.takeWhile_append_dropWhile (p := (· ≠ '.')) (l := name.toList.reverse)
    split at h
    next c rest hdrop =>
      rw [hdrop] at hsplit
      have hextension := congrArg List.reverse (eq_of_beq h)
      rw [List.reverse_reverse] at hextension
      rw [hextension] at hsplit
      have hname := congrArg List.reverse hsplit
      rw [List.reverse_reverse] at hname
      refine ⟨String.ofList (c :: rest).reverse, by simp, ?_⟩
      rw [← String.toList_inj, ← hname]
      simp [sourceExtension]
    · contradiction
  · rintro ⟨stem, hstem, rfl⟩
    obtain ⟨c, rest, hrest⟩ : ∃ c rest, stem.toList.reverse = c :: rest := by
      refine List.exists_cons_of_ne_nil ?_
      simpa using hstem
    have hreverse : (stem ++ ".swift").toList.reverse =
        't' :: 'f' :: 'i' :: 'w' :: 's' :: '.' :: c :: rest := by
      simp [hrest]
    rw [hreverse]
    rfl

end Path

namespace Discovery

variable {excluded : List String}

/-! ## The law -/

/-- A file is sought if these names lead to it. -/
structure IsSought (excluded names : List String) : Prop where
  source : ∃ stem, stem ≠ "" ∧ names.getLast? = some (stem ++ ".swift")
  visible : ∀ n ∈ names, n.toList.head? ≠ some '.'
  included : ∀ n ∈ names.dropLast, n ∉ excluded

namespace IsSought

theorem ne_nil {names : List String} (h : IsSought excluded names) : names ≠ [] := by
  rintro rfl
  obtain ⟨stem, -, hlast⟩ := h.source
  contradiction

theorem singleton_iff {name : String} : IsSought excluded [name] ↔
    Path.isSourceName name = true ∧ Path.isHidden name = false := by
  have hhidden : Path.isHidden name = false ↔ name.toList.head? ≠ some '.' := beq_eq_false_iff_ne
  rw [Path.isSourceName_iff, hhidden]
  constructor
  · rintro ⟨⟨stem, hstem, hlast⟩, hvisible, -⟩
    exact ⟨⟨stem, hstem, Option.some.inj hlast⟩, hvisible name (List.mem_singleton_self name)⟩
  · rintro ⟨⟨stem, hstem, hname⟩, hvisible⟩
    refine ⟨⟨stem, hstem, congrArg some hname⟩, ?_, fun n hn => absurd hn List.not_mem_nil⟩
    intro n hn
    rwa [List.mem_singleton.mp hn]

theorem cons_cons_iff {name below : String} {names : List String} :
    IsSought excluded (name :: below :: names) ↔
      Path.isHidden name = false ∧ name ∉ excluded ∧ IsSought excluded (below :: names) := by
  have hhidden : Path.isHidden name = false ↔ name.toList.head? ≠ some '.' := beq_eq_false_iff_ne
  rw [hhidden]
  constructor
  · rintro ⟨hsource, hvisible, hincluded⟩
    rw [List.forall_mem_cons] at hvisible
    rw [List.dropLast_cons_cons, List.forall_mem_cons] at hincluded
    exact ⟨hvisible.1, hincluded.1, hsource, hvisible.2, hincluded.2⟩
  · rintro ⟨hname, hkept, hsource, hvisible, hincluded⟩
    refine ⟨hsource, List.forall_mem_cons.mpr ⟨hname, hvisible⟩, ?_⟩
    rw [List.dropLast_cons_cons]
    exact List.forall_mem_cons.mpr ⟨hkept, hincluded⟩

end IsSought

/-! ## What a walk finds -/

mutual
/-- The walk finds what is sought at an entry or below it. -/
theorem mem_entry_iff (excluded : List String) (above name : String) (f : FoundFile) :
    ∀ t : FileTree, t.WellFormed →
      (f ∈ (if isPruned excluded name t then [] else walk excluded (Path.join above name) name t) ↔
        ∃ ns, IsSought excluded (name :: ns) ∧ t.find? ns = some (.file f.contents) ∧
          f.path = (name :: ns).foldl Path.join above)
  | .file c, _ => by
    have hpruned : isPruned excluded name (.file c) = Path.isHidden name := Bool.or_false _
    rw [List.mem_ite_nil_left, Bool.not_eq_true, hpruned, walk]
    constructor
    · rintro ⟨hvisible, hf⟩
      split at hf
      next hsource =>
        obtain rfl := List.mem_singleton.mp hf
        exact ⟨[], IsSought.singleton_iff.mpr ⟨hsource, hvisible⟩, rfl, rfl⟩
      · contradiction
    · rintro ⟨ns, hsought, hfind, hpath⟩
      cases ns with
      | cons n ns => contradiction
      | nil =>
        obtain ⟨hsource, hvisible⟩ := IsSought.singleton_iff.mp hsought
        have hcontents : c = f.contents := FileTree.file.inj (Option.some.inj hfind)
        rw [if_pos hsource, hcontents]
        exact ⟨hvisible, List.mem_singleton.mpr (congrArg (FoundFile.mk · f.contents) hpath)⟩
  | .folder es, hwf => by
    rw [FileTree.WellFormed] at hwf
    have hpruned : isPruned excluded name (.folder es) = false ↔
        Path.isHidden name = false ∧ name ∉ excluded := by
      simp [isPruned, FileTree.isFolder]
    rw [List.mem_ite_nil_left, Bool.not_eq_true, hpruned, walk,
      mem_walkEntries_iff excluded (Path.join above name) f es hwf.2 hwf.1]
    constructor
    · rintro ⟨⟨hvisible, hkept⟩, ns, hsought, hfind, hpath⟩
      obtain ⟨n, ns, rfl⟩ := List.exists_cons_of_ne_nil hsought.ne_nil
      exact ⟨n :: ns, IsSought.cons_cons_iff.mpr ⟨hvisible, hkept, hsought⟩, hfind, hpath⟩
    · rintro ⟨ns, hsought, hfind, hpath⟩
      cases ns with
      | nil => cases hfind
      | cons n ns =>
        obtain ⟨hvisible, hkept, hbelow⟩ := IsSought.cons_cons_iff.mp hsought
        exact ⟨⟨hvisible, hkept⟩, n :: ns, hbelow, hfind, hpath⟩

/-- A walk over the entries of a folder finds what is sought below it. -/
theorem mem_walkEntries_iff (excluded : List String) (above : String) (f : FoundFile) :
    ∀ es : List (String × FileTree), FileTree.WellFormedEntries es →
      (es.map Prod.fst).Pairwise (· < ·) →
      (f ∈ walkEntries excluded above es ↔
        ∃ ns, IsSought excluded ns ∧ (FileTree.folder es).find? ns = some (.file f.contents) ∧
          f.path = ns.foldl Path.join above)
  | [], _, _ => by
    rw [walkEntries]
    constructor
    · intro hf
      contradiction
    · rintro ⟨ns, hsought, hfind, -⟩
      obtain ⟨n, ns, rfl⟩ := List.exists_cons_of_ne_nil hsought.ne_nil
      contradiction
  | (name, entry) :: es, hwf, hsorted => by
    rw [FileTree.WellFormedEntries] at hwf
    rw [List.map_cons, List.pairwise_cons] at hsorted
    rw [walkEntries, List.mem_append, mem_entry_iff excluded above name f entry hwf.2.1,
      mem_walkEntries_iff excluded above f es hwf.2.2 hsorted.2]
    have hlookup (n : String) : ((name, entry) :: es).lookup n =
        if n = name then some entry else es.lookup n := by
      rw [List.lookup_cons]
      by_cases hn : n = name
      · rw [if_pos hn, beq_iff_eq.mpr hn]
      · rw [if_neg hn, beq_false_of_ne hn]
    constructor
    · rintro (⟨ns, hsought, hfind, hpath⟩ | ⟨ns, hsought, hfind, hpath⟩)
      · refine ⟨name :: ns, hsought, ?_, hpath⟩
        exact FileTree.find?_cons_eq_some.mpr ⟨entry, (hlookup name).trans (if_pos rfl), hfind⟩
      · obtain ⟨n, ns, rfl⟩ := List.exists_cons_of_ne_nil hsought.ne_nil
        obtain ⟨below, hbelow, hfind⟩ := FileTree.find?_cons_eq_some.mp hfind
        -- a name behind the first is another name
        have hne : n ≠ name := by
          rintro rfl
          obtain ⟨front, back, heq, -⟩ := FileTree.exists_of_lookup hsorted.2 hbelow
          change es = _ at heq
          exact String.lt_irrefl n (hsorted.1 n (by simp [heq]))
        refine ⟨n :: ns, hsought, ?_, hpath⟩
        exact FileTree.find?_cons_eq_some.mpr
          ⟨below, ((hlookup n).trans (if_neg hne)).trans hbelow, hfind⟩
    · rintro ⟨ns, hsought, hfind, hpath⟩
      obtain ⟨n, ns, rfl⟩ := List.exists_cons_of_ne_nil hsought.ne_nil
      obtain ⟨below, hbelow, hfile⟩ := FileTree.find?_cons_eq_some.mp hfind
      have hat := (hlookup n).symm.trans hbelow
      by_cases hn : n = name
      · rw [if_pos hn] at hat
        cases hat
        subst hn
        exact .inl ⟨ns, hsought, hfile, hpath⟩
      · rw [if_neg hn] at hat
        exact .inr ⟨n :: ns, hsought, FileTree.find?_cons_eq_some.mpr ⟨below, hat, hfile⟩, hpath⟩
end

/-! ## Discovery -/

/-- **Discovery finds exactly the files it should.** In a folder, whatever its
own path, it finds the files below that are sought, each of them once and in
the order of their paths. -/
theorem discover_exactly {entries : List (String × FileTree)}
    (hwf : (FileTree.folder entries).WellFormed) (root : String) (excluded : List String) :
    ∃ found, discover root excluded (some (.folder entries)) = .ok found ∧
      (∀ f, f ∈ found ↔ ∃ names, IsSought excluded names ∧
        (FileTree.folder entries).find? names = some (.file f.contents) ∧
        f.path = names.foldl Path.join root) ∧
      (found.map FoundFile.path).Nodup ∧
      found.Pairwise fun f g => Path.before f.path g.path = true := by
  have hordered : (walkEntries excluded root entries).Pairwise fun f g =>
      Path.before f.path g.path = true := by
    have hfound : discover root excluded (some (.folder entries)) =
        .ok (walkEntries excluded root entries) := rfl
    refine pairwise_before_discover ?_ hfound
    rintro t ⟨⟩
    exact hwf
  rw [FileTree.WellFormed] at hwf
  refine ⟨_, rfl, ?_, ?_, hordered⟩
  · exact fun f => mem_walkEntries_iff excluded root f entries hwf.2 hwf.1
  · rw [List.nodup_iff_pairwise_ne, List.pairwise_map]
    exact hordered.imp ne_of_before

/-- The walk starts at a folder with an excluded name. Below it such a folder is
left out, a folder whose name only starts that way is not, and neither is a
file that shares an excluded name. -/
theorem discover_exactly_in_excluded_root :
    let entries : List (String × FileTree) :=
      [(".build", .folder [("h.swift", .file (.text "h"))]),
        ("Pods", .folder [("l.swift", .file (.text "l"))]),
        ("PodsX", .folder [("k.swift", .file (.text "k")), ("k.txt", .file (.text "t"))]),
        ("a.swift", .file (.text "a"))]
    (FileTree.folder entries).WellFormed ∧
      ∃ found, discover "Pods" ["Pods", "a.swift"] (some (.folder entries)) = .ok found ∧
        ⟨"Pods/PodsX/k.swift", .text "k"⟩ ∈ found ∧ ⟨"Pods/a.swift", .text "a"⟩ ∈ found ∧
        (found.map FoundFile.path).Nodup := by
  intro entries
  have hwf : (FileTree.folder entries).WellFormed := by
    simp only [entries, FileTree.WellFormed, FileTree.WellFormedEntries]
    decide +kernel
  obtain ⟨found, hfound, hmem, hnodup, -⟩ :=
    discover_exactly hwf "Pods" ["Pods", "a.swift"]
  refine ⟨hwf, found, hfound, (hmem _).mpr ⟨["PodsX", "k.swift"], ?_, rfl, by decide +kernel⟩,
    (hmem _).mpr ⟨["a.swift"], ?_, rfl, by decide +kernel⟩, hnodup⟩
  · exact ⟨⟨"k", by decide, by decide +kernel⟩, by decide +kernel, by decide +kernel⟩
  · exact ⟨⟨"a", by decide, by decide +kernel⟩, by decide +kernel, by decide +kernel⟩

end Discovery

end AnySome
