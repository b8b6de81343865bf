/-!
# The registry of interface names

The names of all protocols that a project declares. It is filled while the
files of a project are read and only asked afterwards. The names are kept in
order and without repetition, so registries that hold the same names are
equal, in whatever order the names came.

## Main results

* `Registry.mem_add` — an insertion adds the name and keeps the others.
* `Registry.insert_fresh_iff` — an insertion tells whether the name is new.
* `Registry.ext_names` — registries with the same names are equal.
-/

namespace AnySome

/-- A set of names in ascending order. -/
structure Registry where
  names : List String
  sorted : names.Pairwise (· < ·) := by simp
deriving DecidableEq

namespace Registry

/-- The registry without names. -/
def empty : Registry := { names := [] }

instance : Inhabited Registry := ⟨empty⟩

instance : Membership String Registry := ⟨fun r name => name ∈ r.names⟩

instance (name : String) (r : Registry) : Decidable (name ∈ r) :=
  inferInstanceAs (Decidable (name ∈ r.names))

/-- The name is registered. -/
def contains (r : Registry) (name : String) : Bool := r.names.contains name

/-- Number of names. -/
def size (r : Registry) : Nat := r.names.length

/-- There are no names. -/
def isEmpty (r : Registry) : Bool := r.names.isEmpty

/-! ## Insertion -/

/-- Puts a name into its place among ascending names. -/
def place (name : String) : List String → List String
  | [] => [name]
  | n :: ns =>
    if name < n then name :: n :: ns
    else if name = n then n :: ns
    else n :: place name ns

/-- Placing adds the name and keeps the others. -/
theorem mem_place {name x : String} {ns : List String} :
    x ∈ place name ns ↔ x = name ∨ x ∈ ns := by
  induction ns with
  | nil => simp [place]
  | cons n ns ih =>
    unfold place
    split
    · simp
    · split
      next h => subst h; simp
      next =>
        simp only [List.mem_cons, ih]
        constructor
        · rintro (h | h | h)
          · exact Or.inr (Or.inl h)
          · exact Or.inl h
          · exact Or.inr (Or.inr h)
        · rintro (h | h | h)
          · exact Or.inr (Or.inl h)
          · exact Or.inl h
          · exact Or.inr (Or.inr h)

/-- Placing keeps the names ascending. -/
theorem pairwise_place (name : String) {ns : List String} (h : ns.Pairwise (· < ·)) :
    (place name ns).Pairwise (· < ·) := by
  induction ns with
  | nil => simp [place]
  | cons n ns ih =>
    rw [List.pairwise_cons] at h
    unfold place
    split
    next hlt =>
      refine List.pairwise_cons.mpr ⟨?_, List.pairwise_cons.mpr h⟩
      intro x hx
      rcases List.mem_cons.mp hx with rfl | hx
      · exact hlt
      · exact String.lt_trans hlt (h.1 x hx)
    next hlt =>
      split
      · exact List.pairwise_cons.mpr h
      next hne =>
        refine List.pairwise_cons.mpr ⟨?_, ih h.2⟩
        intro x hx
        rcases mem_place.mp hx with rfl | hx
        · exact Std.lt_of_le_of_ne (Std.not_lt.mp hlt) (Ne.symm hne)
        · exact h.1 x hx

/-- Adds a name. -/
def add (r : Registry) (name : String) : Registry :=
  { names := place name r.names, sorted := pairwise_place name r.sorted }

/-- Adds a name, and tells whether it is new. -/
def insert (r : Registry) (name : String) : Bool × Registry :=
  (!r.contains name, r.add name)

/-- Adds several names. -/
def addAll (r : Registry) (names : List String) : Registry := names.foldl add r

/-- The registry of the given names. -/
def ofList (names : List String) : Registry := empty.addAll names

/-! ## Laws -/

@[simp] theorem contains_iff (r : Registry) (name : String) :
    r.contains name = true ↔ name ∈ r := by
  simp [contains, Membership.mem]

/-- An insertion adds the name and keeps the others. -/
@[simp] theorem mem_add {r : Registry} {name x : String} :
    x ∈ r.add name ↔ x = name ∨ x ∈ r := mem_place

/-- An insertion tells whether the name is new. -/
theorem insert_fresh_iff (r : Registry) (name : String) :
    (r.insert name).1 = true ↔ ¬name ∈ r := by
  simp [insert, ← contains_iff]

/-- Several insertions add their names and keep the others. -/
@[simp] theorem mem_addAll {r : Registry} {names : List String} {x : String} :
    x ∈ r.addAll names ↔ x ∈ names ∨ x ∈ r := by
  unfold addAll
  induction names generalizing r with
  | nil => simp
  | cons n ns ih =>
    rw [List.foldl_cons, ih, mem_add, List.mem_cons]
    constructor
    · rintro (h | h | h)
      · exact Or.inl (Or.inr h)
      · exact Or.inl (Or.inl h)
      · exact Or.inr h
    · rintro ((h | h) | h)
      · exact Or.inr (Or.inl h)
      · exact Or.inl h
      · exact Or.inr (Or.inr h)

/-- Ascending names are different. -/
theorem nodup_names (r : Registry) : r.names.Nodup :=
  r.sorted.imp Std.ne_of_lt

/-- Registries with the same names are equal. -/
theorem ext_names {r s : Registry} (h : ∀ x, x ∈ r ↔ x ∈ s) : r = s := by
  have hperm : r.names.Perm s.names :=
    (List.perm_ext_iff_of_nodup r.nodup_names s.nodup_names).mpr h
  have hnames : r.names = s.names :=
    hperm.eq_of_pairwise (fun _ _ _ _ hlt hgt => absurd hgt (Std.not_gt_of_lt hlt)) r.sorted s.sorted
  cases r
  cases s
  simpa using hnames

end Registry

end AnySome
