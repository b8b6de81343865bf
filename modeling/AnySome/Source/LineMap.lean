import AnySome.Source.Position

/-!
# Line maps

The line and the column of a byte offset are looked up in a table of the
bytes at which the lines of a text start. The table is made in one pass over
the bytes of the text, and searched by halving. An offset that is no line
start is not found in it: the search then tells where it would have to be put
in, and its line is the one in front of that.

A table carries the two facts that the search rests on: its starts ascend,
and the first line starts at byte 0, so that no offset lies in front of the
first line.

## Main results

* `LineMap.reaches_lineAt` — the search ends at the last line that does not
  start behind the offset.
* `LineMap.locate_build` — looking an offset up in the table of a text gives
  the place that walking through the text leads to.
-/

namespace AnySome

/-- The bytes at which the lines of a text start. -/
structure LineMap where
  starts : Array Nat
  ascending : starts.toList.Pairwise (· < ·)
  first : starts[0]? = some 0

namespace LineMap

/-! ## Making the table -/

/-- The places behind the line feeds among `bytes`, which begin at `offset`. -/
def startsBehind (offset : Nat) : (bytes : List UInt8) → List Nat
  | [] => []
  | b :: bs =>
    if b = 0x0a then (offset + 1) :: startsBehind (offset + 1) bs
    else startsBehind (offset + 1) bs

/-- A line feed stands in front of each start. -/
theorem lt_of_mem_startsBehind {offset start : Nat} {bs : List UInt8}
    (h : start ∈ startsBehind offset bs) : offset < start := by
  induction bs generalizing offset with
  | nil => contradiction
  | cons b bs ih =>
    rw [startsBehind] at h
    split at h
    · rcases List.mem_cons.mp h with rfl | h
      · exact Nat.lt_succ_self _
      · exact Nat.lt_of_succ_lt (ih h)
    · exact Nat.lt_of_succ_lt (ih h)

theorem pairwise_startsBehind (offset : Nat) (bs : List UInt8) :
    (startsBehind offset bs).Pairwise (· < ·) := by
  induction bs generalizing offset with
  | nil => exact List.Pairwise.nil
  | cons b bs ih =>
    rw [startsBehind]
    split
    · exact List.pairwise_cons.mpr ⟨fun _ h => lt_of_mem_startsBehind h, ih _⟩
    · exact ih _

/-- The line starts of a text. -/
def build (text : String) : LineMap where
  starts := (0 :: startsBehind 0 (Text.bytes text.toList)).toArray
  ascending := List.pairwise_cons.mpr
    ⟨fun _ h => lt_of_mem_startsBehind h, pairwise_startsBehind _ _⟩
  first := rfl

/-! ## Searching it -/

theorem size_pos (m : LineMap) : 0 < m.starts.size := by
  have hfirst := m.first
  rw [Array.getElem?_eq_some_iff] at hfirst
  exact hfirst.1

/-- Halves the `size` entries from `base` on until one of them is left: the
last that is not greater than `offset`, if there is any. -/
def narrow (starts : Array Nat) (offset : Nat) (base : Fin starts.size) (size : Nat)
    (h : base + size ≤ starts.size) : Fin starts.size :=
  if _hsize : 1 < size then
    let half := size / 2
    if starts[base + half] ≤ offset then
      narrow starts offset ⟨base + half, by omega⟩ (size - half) (by dsimp only; omega)
    else narrow starts offset base (size - half) (by omega)
  else base
termination_by size

/-- The line that halving the whole table ends at. -/
def lineAt (m : LineMap) (offset : Nat) : Fin m.starts.size :=
  narrow m.starts offset ⟨0, m.size_pos⟩ m.starts.size (by simp)

/-- Looks for `offset` among the line starts: its index, or else the index at
which it would have to be put in. -/
def search (m : LineMap) (offset : Nat) : Except Nat Nat :=
  let line := m.lineAt offset
  if m.starts[line] = offset then .ok line
  else .error (if m.starts[line] < offset then line + 1 else line)

/-- The line and the column of a byte offset. -/
def locate (m : LineMap) (offset : Nat) : Position :=
  let line := match m.search offset with
    | .ok line => line
    | .error next => next - 1
  ⟨line, offset - m.starts.getD line 0⟩

/-! ## What is found -/

/-- Line `line` does not start behind `offset`, and all later lines do. -/
structure Reaches (starts : Array Nat) (offset : Nat) (line : Fin starts.size) : Prop where
  start_le : starts[line] ≤ offset
  lt_later : ∀ later : Fin starts.size, line < later → offset < starts[later]

theorem le_of_pairwise {starts : Array Nat} (h : starts.toList.Pairwise (· < ·))
    {i j : Fin starts.size} (hij : i ≤ j) : starts[i] ≤ starts[j] := by
  rcases Nat.lt_or_eq_of_le hij with hlt | heq
  · exact Nat.le_of_lt (List.pairwise_iff_getElem.mp h i j i.isLt j.isLt hlt)
  · obtain rfl := Fin.ext heq
    exact Nat.le_refl _

/-- Halving keeps the wanted entry among those that are left. -/
theorem reaches_narrow {starts : Array Nat} {offset : Nat}
    (hstarts : starts.toList.Pairwise (· < ·)) {base : Fin starts.size} {size : Nat}
    (h : base + size ≤ starts.size) (hpos : 0 < size) (hbase : starts[base] ≤ offset)
    (hlater : ∀ later : Fin starts.size, base + size ≤ later → offset < starts[later]) :
    Reaches starts offset (narrow starts offset base size h) := by
  fun_induction narrow starts offset base size h with
  | case1 base size h hsize half hle ih =>
    refine ih (by omega) hle fun later hlt => hlater later ?_
    dsimp only at hlt
    omega
  | case2 base size h hsize half hgt ih =>
    refine ih (by omega) hbase fun later hlt => ?_
    have hmiddle : starts[base + half] ≤ starts[later] :=
      le_of_pairwise (i := ⟨base + half, by omega⟩) hstarts (by
        show base + half ≤ later
        omega)
    omega
  | case3 base size h hsize =>
    exact ⟨hbase, fun later hlt => hlater later (by
      have : (base : Nat) < later := hlt
      omega)⟩

theorem reaches_lineAt (m : LineMap) (offset : Nat) :
    Reaches m.starts offset (m.lineAt offset) := by
  refine reaches_narrow m.ascending _ m.size_pos ?_ fun later hlt => ?_
  · have hzero := (Array.getElem?_eq_some_iff.mp m.first).2
    exact Nat.le_trans (Nat.le_of_eq hzero) (Nat.zero_le _)
  · simp only [Nat.zero_add] at hlt
    exact absurd later.isLt (Nat.not_lt_of_le hlt)

/-- Whether the offset starts a line or not, its line is the one that the search
ends at, and its column is counted from there. -/
theorem locate_eq (m : LineMap) (offset : Nat) :
    m.locate offset = ⟨m.lineAt offset, offset - m.starts[m.lineAt offset]⟩ := by
  have hcolumn : m.starts.getD (m.lineAt offset) 0 = m.starts[m.lineAt offset] := by
    simp [Array.getD_eq_getD_getElem?]
  unfold locate search
  dsimp only
  by_cases heq : m.starts[m.lineAt offset] = offset
  · rw [if_pos heq]
    dsimp only
    rw [hcolumn]
  · have hlt := Nat.lt_of_le_of_ne (m.reaches_lineAt offset).start_le heq
    rw [if_neg heq, if_pos hlt]
    dsimp only
    rw [Nat.add_sub_cancel, hcolumn]

/-! ## The place that is found -/

/-- The place of `offset` when line `line` starts at byte `start`, and the
lines behind it at `later`: the table is read from its front. -/
def placeAmong (offset line start : Nat) : (later : List Nat) → Position
  | [] => ⟨line, offset - start⟩
  | next :: later =>
    if next ≤ offset then placeAmong offset (line + 1) next later else ⟨line, offset - start⟩

/-- No line behind the offset matters. -/
theorem placeAmong_of_lt {offset line start : Nat} {later : List Nat}
    (h : ∀ next ∈ later, offset < next) :
    placeAmong offset line start later = ⟨line, offset - start⟩ := by
  cases later with
  | nil => rfl
  | cons next later => rw [placeAmong, if_neg (Nat.not_le_of_lt (h next List.mem_cons_self))]

/-- Reading the table from its front ends where the search ends. -/
theorem placeAmong_of_reaches {offset line start : Nat} {later : List Nat}
    (hstarts : (start :: later).Pairwise (· < ·)) {i : Nat} (hi : i < (start :: later).length)
    (hle : (start :: later)[i] ≤ offset)
    (hlater : ∀ j (hj : j < (start :: later).length), i < j → offset < (start :: later)[j]) :
    placeAmong offset line start later = ⟨line + i, offset - (start :: later)[i]⟩ := by
  induction later generalizing line start i with
  | nil =>
    have hzero : i = 0 := by simpa using hi
    subst hzero
    rfl
  | cons next later ih =>
    cases i with
    | zero =>
      have hnext : offset < next := hlater 1 (by simp) Nat.one_pos
      rw [placeAmong, if_neg (Nat.not_le_of_lt hnext)]
      rfl
    | succ i =>
      have htail := (List.pairwise_cons.mp hstarts).2
      have hi' : i < (next :: later).length := Nat.lt_of_succ_lt_succ hi
      have hnext : next ≤ offset := by
        rcases Nat.eq_zero_or_pos i with rfl | hpos
        · exact hle
        · have hlt : next < (next :: later)[i] :=
            List.pairwise_iff_getElem.mp htail 0 i (by simp) hi' hpos
          exact Nat.le_trans (Nat.le_of_lt hlt) hle
      rw [placeAmong, if_pos hnext, ih htail hi' hle
        fun j hj hlt => hlater (j + 1) (Nat.succ_lt_succ hj) (Nat.succ_lt_succ hlt)]
      simp [Nat.add_assoc, Nat.add_comm 1]

theorem startsBehind_append (offset : Nat) (as bs : List UInt8) :
    startsBehind offset (as ++ bs) =
      startsBehind offset as ++ startsBehind (offset + as.length) bs := by
  induction as generalizing offset with
  | nil => rfl
  | cons a as ih =>
    simp only [List.cons_append, startsBehind, ih, List.length_cons]
    split <;> simp [Nat.add_assoc, Nat.add_comm 1]

theorem startsBehind_eq_nil {offset : Nat} {bs : List UInt8} (h : 0x0a ∉ bs) :
    startsBehind offset bs = [] := by
  induction bs generalizing offset with
  | nil => rfl
  | cons b bs ih =>
    rw [List.mem_cons, not_or] at h
    rw [startsBehind, if_neg (fun hb => h.1 hb.symm), ih h.2]

/-- Only a line feed starts a line behind it. -/
theorem startsBehind_cons {c : Char} (hc : c ≠ '\n') (offset : Nat) (cs : List Char) :
    startsBehind offset (Text.bytes (c :: cs)) =
      startsBehind (offset + c.utf8Size) (Text.bytes cs) := by
  have hnone : (0x0a : UInt8) ∉ String.utf8EncodeChar c := fun hmem =>
    hc (Text.eq_of_mem_encode (a := '\n') (by decide) hmem)
  rw [Text.bytes_cons, startsBehind_append, startsBehind_eq_nil hnone,
    String.length_utf8EncodeChar, List.nil_append]

/-- No line starts inside a character. -/
theorem lt_of_inside {offset n next : Nat} {c : Char} {cs : List Char} (h : n < c.utf8Size)
    (hnext : next ∈ startsBehind offset (Text.bytes (c :: cs))) : offset + n < next := by
  by_cases hc : c = '\n'
  · have hzero : n = 0 := by
      rw [hc] at h
      exact Nat.lt_one_iff.mp h
    rw [hzero]
    exact lt_of_mem_startsBehind hnext
  · rw [startsBehind_cons hc] at hnext
    exact Nat.lt_trans (Nat.add_lt_add_left h _) (lt_of_mem_startsBehind hnext)

/-- Walking through characters that begin at byte `offset`, in the line that
starts at byte `start`, leads to the place that the starts among them tell. -/
theorem walk_eq_placeAmong {offset line start : Nat} (h : start ≤ offset) (n : Nat)
    (cs : List Char) : Position.walk ⟨line, offset - start⟩ n cs =
      placeAmong (offset + n) line start (startsBehind offset (Text.bytes cs)) := by
  induction cs generalizing offset line start n with
  | nil =>
    rw [Text.bytes_nil, startsBehind, placeAmong]
    cases n with
    | zero => rfl
    | succ n => rw [Position.walk, Nat.sub_add_comm h]
  | cons c cs ih =>
    by_cases hwhole : c.utf8Size ≤ n
    · obtain ⟨n, rfl⟩ := Nat.exists_eq_add_of_le hwhole
      rw [Position.walk_cons, ← Nat.add_assoc]
      by_cases hc : c = '\n'
      · subst hc
        have hrest := @ih (offset + 1) (line + 1) (offset + 1) (Nat.le_refl _) n
        rw [Nat.sub_self] at hrest
        exact hrest.trans (if_pos (Nat.le_add_right _ _)).symm
      · rw [Position.after, if_neg hc, startsBehind_cons hc, ← Nat.sub_add_comm h]
        exact ih (Nat.le_trans h (Nat.le_add_right _ _)) n
    · have hinside := Nat.lt_of_not_le hwhole
      rw [Position.walk_inside _ hinside, placeAmong_of_lt fun _ => lt_of_inside hinside]
      dsimp only
      rw [Nat.sub_add_comm h]

/-- Looking an offset up in the table of a text gives the place that walking
through the text leads to. -/
theorem locate_build (text : String) (offset : Nat) :
    (build text).locate offset = Position.walk ⟨0, 0⟩ offset text.toList := by
  have hreach := (build text).reaches_lineAt offset
  have hamong := @placeAmong_of_reaches offset 0 0 _ (build text).ascending _
    ((build text).lineAt offset).isLt hreach.start_le
    fun j hj hlt => hreach.lt_later ⟨j, hj⟩ hlt
  have hwalk := @walk_eq_placeAmong 0 0 0 (Nat.le_refl 0) offset text.toList
  rw [Nat.zero_add] at hamong hwalk
  rw [locate_eq]
  exact (hwalk.trans hamong).symm

end LineMap

/-- The line and column of a byte offset into `text`. -/
def Position.ofOffset (text : String) (offset : Nat) : Position :=
  (LineMap.build text).locate offset

end AnySome
