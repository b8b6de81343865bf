import AnySome.Program
import AnySome.Proofs.PathOrder

/-!
# Writing found files back

A file that was found below a folder is written under the path under which it
was found. Following that path again leads to the very file, and putting other
contents in its place changes what a later walk finds in one respect only: the
contents of that file. So a later walk finds the same paths in the same order.

A tree in which the contents of a file are replaced has files and folders in
the same places (`FileTree.kindAt`), and what a path names depends on nothing
else.

## Main results

* `FileTree.locate_descend` — the path of a found file leads to it.
* `Discovery.walk_put` — what a walk finds after a file was replaced.
* `Discovery.discover_writeAll` — what is found after texts were written back.
-/

namespace AnySome

namespace FileTree

/-! ## Entries in order -/

section Entries

variable {es front back : List (String × FileTree)} {n : String} {u : FileTree}

theorem wellFormedEntries_iff :
    WellFormedEntries es ↔ ∀ e ∈ es, Path.IsEntryName e.1 ∧ e.2.WellFormed := by
  induction es with
  | nil => simp [WellFormedEntries]
  | cons e es ih =>
    obtain ⟨name, entry⟩ := e
    rw [WellFormedEntries, ih]
    simp [and_assoc]

/-- An entry stands behind those with smaller names. -/
theorem exists_of_lookup (hsorted : (es.map Prod.fst).Pairwise (· < ·))
    (h : es.lookup n = some u) :
    ∃ front back, es = front ++ (n, u) :: back ∧ ∀ e ∈ front, e.1 < n := by
  induction es with
  | nil => contradiction
  | cons e es ih =>
    obtain ⟨m, v⟩ := e
    rw [List.map_cons, List.pairwise_cons] at hsorted
    by_cases hnm : n = m
    · subst hnm
      rw [List.lookup_cons_self] at h
      cases h
      exact ⟨[], es, rfl, by simp⟩
    · rw [List.lookup_cons, show (n == m) = false from beq_false_of_ne hnm] at h
      obtain ⟨front, back, rfl, hfront⟩ := ih hsorted.2 h
      refine ⟨(m, v) :: front, back, rfl, ?_⟩
      intro e he
      rcases List.mem_cons.mp he with rfl | he
      · exact hsorted.1 n (by simp)
      · exact hfront e he

theorem alter_append_cons (change : Option FileTree → FileTree) (hfront : ∀ e ∈ front, e.1 < n) :
    alter n change (front ++ (n, u) :: back) = front ++ (n, change (some u)) :: back := by
  induction front with
  | nil => simp [alter]
  | cons e front ih =>
    obtain ⟨m, v⟩ := e
    have hlt : m < n := hfront _ List.mem_cons_self
    have hne : ¬n = m := by
      rintro rfl
      exact String.lt_irrefl _ hlt
    rw [List.cons_append, alter, if_neg (String.lt_asymm hlt), if_neg hne,
      ih fun e he => hfront e (List.mem_cons_of_mem _ he), List.cons_append]

theorem lookup_append_cons (hfront : ∀ e ∈ front, e.1 < n) (m : String) :
    (front ++ (n, u) :: back).lookup m =
      if m = n then some u else (front ++ back).lookup m := by
  rw [List.lookup_append, List.lookup_append, List.lookup_cons]
  by_cases hm : m = n
  · subst hm
    have hnone : front.lookup m = none := by
      rw [List.lookup_eq_none_iff]
      intro e he
      have hlt := hfront e he
      rw [bne_iff_ne]
      intro heq
      exact String.lt_irrefl m (by rwa [← heq] at hlt)
    simp [hnone]
  · rw [if_neg hm, show (m == n) = false from beq_false_of_ne hm]

/-- An entry that is there is changed, and no other. -/
theorem lookup_alter (hsorted : (es.map Prod.fst).Pairwise (· < ·)) (h : es.lookup n = some u)
    (change : Option FileTree → FileTree) (m : String) :
    (alter n change es).lookup m = if m = n then some (change (some u)) else es.lookup m := by
  obtain ⟨front, back, rfl, hfront⟩ := exists_of_lookup hsorted h
  rw [alter_append_cons change hfront, lookup_append_cons hfront, lookup_append_cons hfront]
  split <;> rfl

end Entries

/-! ## Places -/

section Places

variable {t u v : FileTree} {n : String} {p q : List String} {c old : Contents}

theorem find?_cons (t : FileTree) (n : String) (p : List String) :
    t.find? (n :: p) = (t.entries.lookup n).bind fun u => u.find? p := by
  rw [find?]
  cases t.entries.lookup n <;> rfl

theorem find?_append (t : FileTree) (p q : List String) :
    t.find? (p ++ q) = (t.find? p).bind fun u => u.find? q := by
  induction p generalizing t with
  | nil => rfl
  | cons n p ih =>
    rw [List.cons_append, find?_cons, find?_cons, Option.bind_assoc]
    congr 1
    funext u
    exact ih u

theorem find?_cons_eq_some : t.find? (n :: p) = some u ↔
    ∃ v, t.entries.lookup n = some v ∧ v.find? p = some u := by
  rw [find?_cons, Option.bind_eq_some_iff]

theorem WellFormed.sorted (h : t.WellFormed) : (t.entries.map Prod.fst).Pairwise (· < ·) := by
  cases t with
  | file c => exact List.Pairwise.nil
  | folder es =>
    rw [WellFormed] at h
    exact h.1

theorem WellFormed.lookup (h : t.WellFormed) (hu : t.entries.lookup n = some u) :
    u.WellFormed := by
  cases t with
  | file c => contradiction
  | folder es =>
    rw [WellFormed, wellFormedEntries_iff] at h
    obtain ⟨front, back, heq, -⟩ := exists_of_lookup h.1 hu
    change es = _ at heq
    exact (h.2 (n, u) (by simp [heq])).2

theorem WellFormed.find? (h : t.WellFormed) (hu : t.find? p = some u) : u.WellFormed := by
  induction p generalizing t with
  | nil =>
    cases hu
    exact h
  | cons n p ih =>
    obtain ⟨v, hv, hu⟩ := find?_cons_eq_some.mp hu
    exact ih (h.lookup hv) hu

/-- What stands in front of the place at which a tree is put. -/
theorem find?_put_append (h : t.WellFormed) (hu : t.find? p = some u) (new : FileTree)
    (q : List String) : (put new (p ++ q) t).find? p = some (put new q u) := by
  induction p generalizing t with
  | nil =>
    cases hu
    rfl
  | cons n p ih =>
    obtain ⟨v, hv, hu⟩ := find?_cons_eq_some.mp hu
    rw [List.cons_append, put]
    refine find?_cons_eq_some.mpr ⟨put new (p ++ q) v, ?_, ih (h.lookup hv) hu⟩
    show (alter n _ t.entries).lookup n = _
    rw [lookup_alter h.sorted hv, if_pos rfl]
    rfl

theorem isFolder_put (hfile : t.find? q = some (.file old)) (c : Contents) :
    (put (.file c) q t).isFolder = t.isFolder := by
  cases q with
  | nil =>
    cases hfile
    rfl
  | cons n q =>
    obtain ⟨v, hv, -⟩ := find?_cons_eq_some.mp hfile
    cases t with
    | file c => contradiction
    | folder es => rfl

/-- Replacing the contents of a file keeps a tree well formed. -/
theorem WellFormed.put (h : t.WellFormed) (hfile : t.find? q = some (.file old)) (c : Contents) :
    (put (.file c) q t).WellFormed := by
  induction q generalizing t with
  | nil =>
    rw [FileTree.put, WellFormed]
    trivial
  | cons n q ih =>
    obtain ⟨v, hv, hfile⟩ := find?_cons_eq_some.mp hfile
    have hnew := ih (h.lookup hv) hfile
    cases t with
    | file c => contradiction
    | folder es =>
      rw [WellFormed, wellFormedEntries_iff] at h
      obtain ⟨front, back, heq, hfront⟩ := exists_of_lookup h.1 hv
      change es = _ at heq
      subst heq
      rw [FileTree.put]
      show (folder (alter n _ (front ++ (n, v) :: back))).WellFormed
      rw [alter_append_cons _ hfront, WellFormed, wellFormedEntries_iff]
      refine ⟨by simpa using h.1, ?_⟩
      intro e he
      rcases List.mem_append.mp he with he | he
      · exact h.2 e (List.mem_append_left _ he)
      · rcases List.mem_cons.mp he with rfl | he
        · exact ⟨(h.2 (n, v) (by simp)).1, hnew⟩
        · exact h.2 e (List.mem_append_right _ (List.mem_cons_of_mem _ he))

/-! ## Files and folders of a tree -/

/-- Whether a folder or a file stands at a place, if anything does. -/
def kindAt (t : FileTree) (p : List String) : Option Bool := (t.find? p).map isFolder

/-- Replacing the contents of a file leaves files and folders where they are. -/
theorem kindAt_put (h : t.WellFormed) (hfile : t.find? q = some (.file old)) (c : Contents)
    (p : List String) : kindAt (put (.file c) q t) p = kindAt t p := by
  induction q generalizing t p with
  | nil =>
    cases hfile
    cases p <;> rfl
  | cons n q ih =>
    cases p with
    | nil => exact congrArg some (isFolder_put hfile c)
    | cons m p =>
      obtain ⟨v, hv, hfile⟩ := find?_cons_eq_some.mp hfile
      have hbelow := ih (h.lookup hv) hfile p
      unfold kindAt at hbelow ⊢
      rw [FileTree.put, find?_cons, find?_cons]
      show Option.map _ (((alter n _ t.entries).lookup m).bind _) = _
      rw [lookup_alter h.sorted hv]
      by_cases hm : m = n
      · subst hm
        rw [if_pos rfl, hv]
        exact hbelow
      · rw [if_neg hm]

theorem kindAt_of_below (h : (t.find? (p ++ [n])).isSome = true) : kindAt t p = some true := by
  rw [find?_append] at h
  unfold kindAt
  cases hu : t.find? p with
  | none =>
    rw [hu] at h
    contradiction
  | some u =>
    rw [hu] at h
    cases u with
    | file c => contradiction
    | folder es => rfl

/-- Following a path asks for nothing but files and folders. -/
theorem follow_cons (t : FileTree) (p : List String) (piece : String) (pieces : List String) :
    follow t p (piece :: pieces) =
      match kindAt t p with
      | none => .error .notFound
      | some false => .error .notFolder
      | some true =>
        if piece = "" ∨ piece = "." then follow t p pieces
        else if piece = ".." then follow t p.dropLast pieces
        else if (kindAt t (p ++ [piece])).isSome then follow t (p ++ [piece]) pieces
        else .error .notFound := by
  rw [follow]
  unfold kindAt
  rw [find?_append]
  cases t.find? p with
  | none => rfl
  | some u =>
    cases u with
    | file c => rfl
    | folder es =>
      have hlookup : (Option.map isFolder ((some (folder es)).bind fun u => u.find? [piece])).isSome =
          (es.lookup piece).isSome := by
        rw [Option.bind_some, find?_cons, Option.isSome_map]
        show ((es.lookup piece).bind some).isSome = _
        rw [Option.bind_fun_some]
      rw [hlookup]
      rfl

theorem follow_congr (h : ∀ p, kindAt t p = kindAt u p) (p pieces : List String) :
    follow t p pieces = follow u p pieces := by
  induction pieces generalizing p with
  | nil => rfl
  | cons piece pieces ih =>
    rw [follow_cons, follow_cons, h p, h (p ++ [piece]), ih p, ih p.dropLast, ih (p ++ [piece])]

theorem locate_congr (h : ∀ p, kindAt t p = kindAt u p) (here : List String) (path : String) :
    t.locate here path = u.locate here path := by
  unfold locate
  rw [follow_congr h]

theorem follow_append (t : FileTree) (p as bs : List String) :
    follow t p (as ++ bs) = (follow t p as).bind fun r => follow t r bs := by
  induction as generalizing p with
  | nil => rfl
  | cons piece as ih =>
    rw [List.cons_append, follow_cons, follow_cons, ih p, ih p.dropLast, ih (p ++ [piece])]
    cases kindAt t p with
    | none => rfl
    | some isFolder =>
      cases isFolder with
      | false => rfl
      | true =>
        dsimp only
        split
        · rfl
        · split
          · rfl
          · split <;> rfl

theorem follow_name (hname : Path.IsEntryName n) (h : (t.find? (p ++ [n])).isSome = true) :
    follow t p [n] = .ok (p ++ [n]) := by
  have hbelow : (kindAt t (p ++ [n])).isSome = true := by
    unfold kindAt
    rwa [Option.isSome_map]
  rw [follow_cons, kindAt_of_below h]
  simp [hname.ne_empty, hname.ne_here, hname.ne_up, hbelow, follow]

theorem follow_empty (h : follow t p [""] = .ok q) : q = p := by
  rw [follow_cons] at h
  cases hkind : kindAt t p with
  | none =>
    rw [hkind] at h
    contradiction
  | some isFolder =>
    rw [hkind] at h
    cases isFolder with
    | false => contradiction
    | true => exact (Except.ok.inj h).symm

/-- Going down to an entry. -/
theorem locate_join {here : List String} {path : String} (hname : Path.IsEntryName n)
    (hplace : t.locate here path = .ok p) (h : (t.find? (p ++ [n])).isSome = true) :
    t.locate here (Path.join path n) = .ok (p ++ [n]) := by
  unfold locate at hplace
  split at hplace
  · contradiction
  next hempty =>
    have hpath : path ≠ "" := by
      rintro rfl
      exact hempty rfl
    obtain ⟨front, back, hpieces, hback, hne, hjoin, habs⟩ := Path.pieces_join hpath hname
    have hjoined : (Path.join path n).isEmpty = false := by
      rw [Bool.eq_false_iff]
      intro hemp
      have hlength := congrArg List.length hjoin
      have hone : Path.pieces "" = [""] := by decide +kernel
      have hpos := List.length_pos_iff.mpr hne
      rw [show Path.join path n = "" by simpa using hemp, hone, List.length_append] at hlength
      simp at hlength
      exact hne hlength
    unfold locate
    rw [hjoined, hjoin, habs, follow_append]
    have hfront : follow t (if Path.isAbsolute path then [] else here) front = .ok p := by
      rcases hback with rfl | rfl
      · rwa [hpieces, List.append_nil] at hplace
      · rw [hpieces, follow_append] at hplace
        cases hfollow : follow t (if Path.isAbsolute path then [] else here) front with
        | error e =>
          rw [hfollow] at hplace
          contradiction
        | ok r =>
          rw [hfollow] at hplace
          rw [follow_empty hplace]
    rw [hfront]
    exact follow_name hname h

/-- Going down along names leads to what stands below them. -/
theorem locate_descend {here : List String} {path : String} (hnames : ∀ n ∈ q, Path.IsEntryName n)
    (hplace : t.locate here path = .ok p) (h : t.find? (p ++ q) = some u) :
    t.locate here (q.foldl Path.join path) = .ok (p ++ q) := by
  induction q generalizing path p with
  | nil => rwa [List.append_nil]
  | cons n q ih =>
    have hsplit : p ++ n :: q = (p ++ [n]) ++ q := by simp
    rw [hsplit] at h ⊢
    refine ih (fun m hm => hnames m (List.mem_cons_of_mem n hm)) ?_ h
    refine locate_join (hnames n List.mem_cons_self) hplace ?_
    rw [find?_append] at h
    obtain ⟨v, hv, -⟩ := Option.bind_eq_some_iff.mp h
    rw [hv]
    rfl

theorem access_eq (t : FileTree) (here : List String) (path : String) :
    t.access here path =
      (t.locate here path).bind fun p => (t.find? p).elim (.error .notFound) .ok := by
  unfold access
  cases t.locate here path with
  | error e => rfl
  | ok p =>
    simp only [bind, Except.bind]
    cases t.find? p <;> rfl

theorem access_eq_ok_iff {here : List String} {path : String} :
    t.access here path = .ok u ↔ ∃ p, t.locate here path = .ok p ∧ t.find? p = some u := by
  rw [access_eq]
  cases t.locate here path with
  | error e => simp [Except.bind]
  | ok p =>
    simp only [Except.bind, Except.ok.injEq, exists_eq_left']
    cases t.find? p <;> simp

end Places

end FileTree

/-! ## What a walk finds -/

namespace FoundFile

/-- The file with other contents, if it is the one at `path`. -/
def refill (path : String) (c : Contents) (f : FoundFile) : FoundFile :=
  if f.path = path then ⟨f.path, c⟩ else f

/-- The file with the texts that were written to it, the last of them in the
end. -/
def refillAll (writes : List (String × String)) (f : FoundFile) : FoundFile :=
  writes.foldl (fun g w => g.refill w.1 (.text w.2)) f

variable {path : String} {c : Contents} {f : FoundFile}

@[simp] theorem path_refill : (f.refill path c).path = f.path := by
  unfold refill
  split <;> rfl

theorem refill_of_ne (h : f.path ≠ path) : f.refill path c = f := if_neg h

theorem refill_self (f : FoundFile) (c : Contents) : f.refill f.path c = ⟨f.path, c⟩ := if_pos rfl

theorem map_refill_of_ne {fs : List FoundFile} (h : ∀ f ∈ fs, f.path ≠ path) :
    fs.map (refill path c) = fs := by
  have hsame : fs.map (refill path c) = fs.map id :=
    List.map_congr_left fun f hf => refill_of_ne (h f hf)
  rw [hsame, List.map_id]

end FoundFile

namespace Discovery

theorem ne_of_before {p q : String} (h : Path.before p q = true) : p ≠ q := by
  rintro rfl
  rw [Path.before, Path.partsBefore_irrefl] at h
  contradiction

mutual
/-- A found file stands below some names, and replacing its contents replaces
them in what the walk finds. -/
theorem walk_put (excluded : List String) (path name : String) : ∀ t : FileTree, t.WellFormed →
    ∀ f ∈ walk excluded path name t, ∃ ns, (∀ n ∈ ns, Path.IsEntryName n) ∧
      f.path = ns.foldl Path.join path ∧ t.find? ns = some (.file f.contents) ∧
      ∀ c, walk excluded path name (FileTree.put (.file c) ns t) =
        (walk excluded path name t).map (FoundFile.refill f.path c)
  | .file contents, _, f, hf => by
    unfold walk at hf
    split at hf
    next hsource =>
      obtain rfl := List.mem_singleton.mp hf
      refine ⟨[], by simp, rfl, rfl, ?_⟩
      intro c
      rw [FileTree.put, walk, walk, if_pos hsource, if_pos hsource, List.map_singleton,
        FoundFile.refill_self]
    · contradiction
  | .folder entries, hwf, f, hf => by
    rw [FileTree.WellFormed] at hwf
    rw [walk] at hf
    obtain ⟨n, ms, entry, hnames, hpath, hlookup, hfind, hput⟩ :=
      walkEntries_put excluded path entries hwf.2 hwf.1 f hf
    refine ⟨n :: ms, hnames, hpath, FileTree.find?_cons_eq_some.mpr ⟨entry, hlookup, hfind⟩, ?_⟩
    intro c
    rw [FileTree.put, walk, walk]
    exact hput c

theorem walkEntries_put (excluded : List String) (path : String) :
    ∀ entries : List (String × FileTree), FileTree.WellFormedEntries entries →
      (entries.map Prod.fst).Pairwise (· < ·) → ∀ f ∈ walkEntries excluded path entries,
      ∃ n ms entry, (∀ m ∈ n :: ms, Path.IsEntryName m) ∧
        f.path = (n :: ms).foldl Path.join path ∧ entries.lookup n = some entry ∧
        entry.find? ms = some (.file f.contents) ∧
        ∀ c, walkEntries excluded path
            (FileTree.alter n (fun below => FileTree.put (.file c) ms (below.getD .empty)) entries) =
          (walkEntries excluded path entries).map (FoundFile.refill f.path c)
  | [], _, _, _, hf => by contradiction
  | (name, entry) :: entries, hwf, hsorted, f, hf => by
    -- what is found at different places has different paths
    have hdistinct := (ascends_walkEntries excluded path _ hwf hsorted).2
    rw [FileTree.WellFormedEntries] at hwf
    obtain ⟨hname, hentry, hentries⟩ := hwf
    rw [List.map_cons, List.pairwise_cons] at hsorted
    rw [walkEntries] at hdistinct hf ⊢
    have hapart := (List.pairwise_append.mp hdistinct).2.2
    rcases List.mem_append.mp hf with hhere | hbehind
    · have hkept : ∀ g ∈ walkEntries excluded path entries, g.path ≠ f.path :=
        fun g hg => (ne_of_before (hapart f hhere g hg)).symm
      by_cases hpruned : isPruned excluded name entry = true
      · rw [if_pos hpruned] at hhere
        contradiction
      · rw [if_neg hpruned] at hhere ⊢
        obtain ⟨ms, hms, hpath, hfind, hput⟩ :=
          walk_put excluded (Path.join path name) name entry hentry f hhere
        refine ⟨name, ms, entry, List.forall_mem_cons.mpr ⟨hname, hms⟩, hpath,
          List.lookup_cons_self, hfind, ?_⟩
        intro c
        rw [FileTree.alter, if_neg (String.lt_irrefl name), if_pos rfl, walkEntries]
        show (if isPruned excluded name (FileTree.put (.file c) ms entry) then [] else _) ++ _ = _
        have hsame : isPruned excluded name (FileTree.put (.file c) ms entry) =
            isPruned excluded name entry := by
          unfold isPruned
          rw [FileTree.isFolder_put hfind]
        rw [hsame, if_neg hpruned, List.map_append, FoundFile.map_refill_of_ne hkept]
        exact congrArg (· ++ _) (hput c)
    · have hkept : ∀ g ∈ (if isPruned excluded name entry then []
          else walk excluded (Path.join path name) name entry), g.path ≠ f.path :=
        fun g hg => ne_of_before (hapart g hg f hbehind)
      obtain ⟨n, ms, below, hnames, hpath, hlookup, hfind, hput⟩ :=
        walkEntries_put excluded path entries hentries hsorted.2 f hbehind
      have hlt : name < n := by
        obtain ⟨front, back, heq, -⟩ := FileTree.exists_of_lookup hsorted.2 hlookup
        exact hsorted.1 n (by simp [heq])
      have hne : ¬n = name := by
        rintro rfl
        exact String.lt_irrefl n hlt
      refine ⟨n, ms, below, hnames, hpath, ?_, hfind, ?_⟩
      · rwa [List.lookup_cons, show (n == name) = false from beq_false_of_ne hne]
      · intro c
        rw [FileTree.alter, if_neg (String.lt_asymm hlt), if_neg hne, walkEntries, hput c,
          List.map_append, FoundFile.map_refill_of_ne hkept]
end

/-! ## What is found after writing -/

section Writing

variable {tree : FileTree} {here : List String} {root : String} {excluded : List String}
  {found : List FoundFile}

theorem exists_of_discover
    (h : discover root excluded (tree.access here root).toOption = .ok found) :
    ∃ place entries, tree.locate here root = .ok place ∧
      tree.find? place = some (.folder entries) ∧ found = walkEntries excluded root entries := by
  cases haccess : tree.access here root with
  | error e =>
    rw [haccess] at h
    contradiction
  | ok u =>
    rw [haccess] at h
    cases u with
    | file c => contradiction
    | folder entries =>
      obtain ⟨place, hplace, hfind⟩ := FileTree.access_eq_ok_iff.mp haccess
      exact ⟨place, entries, hplace, hfind, (Except.ok.inj h).symm⟩

/-- Writing a found file changes what is found in one file only. -/
theorem discover_writeText (hwf : tree.WellFormed)
    (h : discover root excluded (tree.access here root).toOption = .ok found) {f : FoundFile}
    (hf : f ∈ found) (text : String) :
    (tree.writeText here f.path text).WellFormed ∧
      discover root excluded ((tree.writeText here f.path text).access here root).toOption =
        .ok (found.map (FoundFile.refill f.path (.text text))) := by
  obtain ⟨place, entries, hplace, hfind, rfl⟩ := exists_of_discover h
  have hbelow := hwf.find? hfind
  rw [FileTree.WellFormed] at hbelow
  obtain ⟨n, ms, entry, hnames, hpath, hlookup, hentry, hput⟩ :=
    walkEntries_put excluded root entries hbelow.2 hbelow.1 f hf
  have hfile : tree.find? (place ++ n :: ms) = some (.file f.contents) := by
    rw [FileTree.find?_append, hfind, Option.bind_some]
    exact FileTree.find?_cons_eq_some.mpr ⟨entry, hlookup, hentry⟩
  have hlocate : tree.locate here f.path = .ok (place ++ n :: ms) := by
    rw [hpath]
    exact FileTree.locate_descend hnames hplace hfile
  have hwrite : tree.writeText here f.path text =
      FileTree.put (.file (.text text)) (place ++ n :: ms) tree := by
    unfold FileTree.writeText
    rw [hlocate]
  rw [hwrite]
  refine ⟨hwf.put hfile _, ?_⟩
  have hroot : (FileTree.put (.file (.text text)) (place ++ n :: ms) tree).locate here root =
      .ok place := by
    rw [FileTree.locate_congr (FileTree.kindAt_put hwf hfile (.text text)), hplace]
  rw [FileTree.access_eq_ok_iff.mpr ⟨place, hroot, FileTree.find?_put_append hwf hfind _ _⟩,
    FileTree.put]
  exact congrArg Except.ok (hput (.text text))

/-- Writing texts to found files changes what is found in their contents only. -/
theorem discover_writeAll (hwf : tree.WellFormed)
    (h : discover root excluded (tree.access here root).toOption = .ok found)
    {writes : List (String × String)} (hwrites : ∀ w ∈ writes, w.1 ∈ found.map FoundFile.path) :
    (Program.writeAll tree here writes).WellFormed ∧
      discover root excluded ((Program.writeAll tree here writes).access here root).toOption =
        .ok (found.map (FoundFile.refillAll writes)) := by
  induction writes generalizing tree found with
  | nil =>
    refine ⟨hwf, ?_⟩
    rw [show found.map (FoundFile.refillAll []) = found from List.map_id found]
    exact h
  | cons w writes ih =>
    obtain ⟨f, hf, hpath⟩ := List.mem_map.mp (hwrites w List.mem_cons_self)
    obtain ⟨hwf', hnext⟩ := discover_writeText hwf h hf w.2
    rw [hpath] at hwf' hnext
    obtain ⟨hend, hlast⟩ := ih hwf' hnext (by
      intro v hv
      have hmem := hwrites v (List.mem_cons_of_mem w hv)
      simpa [Function.comp_def] using hmem)
    refine ⟨hend, hlast.trans ?_⟩
    rw [List.map_map]
    rfl

end Writing

end Discovery

end AnySome
