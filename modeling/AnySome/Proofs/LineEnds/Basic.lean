import AnySome.Source.Name
import AnySome.Source.Text

/-!
# Line feeds behind carriage returns

Putting a carriage return in front of every line feed changes how lines end and
nothing else. It goes through concatenation, no two texts become the same, and a
text without line feeds stays as it is. So whatever is found out by comparing
with such texts, or by passing over characters other than the two, is found out
in the same way before and after.

The offsets of a text move: a byte goes back by the number of line feeds in
front of it (`Text.crlfOffset`).

## Main results

* `Text.crlfChars_append`, `Text.crlfChars_inj` — the conversion of a text.
* `Text.crlfChars_eq_iff` — texts without line feeds.
* `Text.crlfOffset_append` — where the bytes behind a front part go.
-/

namespace AnySome.Text

/-! ## Characters -/

/-- The characters with a carriage return in front of every line feed. -/
def crlfChars : List Char → List Char
  | [] => []
  | c :: cs => if c = '\n' then '\r' :: '\n' :: crlfChars cs else c :: crlfChars cs

@[simp] theorem crlfChars_nil : crlfChars [] = [] := rfl

@[simp] theorem crlfChars_lineFeed (cs : List Char) :
    crlfChars ('\n' :: cs) = '\r' :: '\n' :: crlfChars cs := rfl

theorem crlfChars_cons {c : Char} (h : c ≠ '\n') (cs : List Char) :
    crlfChars (c :: cs) = c :: crlfChars cs := if_neg h

@[simp] theorem crlfChars_append (as bs : List Char) :
    crlfChars (as ++ bs) = crlfChars as ++ crlfChars bs := by
  induction as with
  | nil => rfl
  | cons a as ih =>
    by_cases ha : a = '\n'
    · subst ha
      simp [ih]
    · simp [crlfChars_cons ha, ih]

theorem crlfChars_eq_self {cs : List Char} (h : '\n' ∉ cs) : crlfChars cs = cs := by
  induction cs with
  | nil => rfl
  | cons c cs ih =>
    rw [List.mem_cons, not_or] at h
    rw [crlfChars_cons (Ne.symm h.1), ih h.2]

/-- A converted text does not start in the middle of a line end. -/
theorem head_crlfChars_ne (cs : List Char) : (crlfChars cs).head? ≠ some '\n' := by
  cases cs with
  | nil => simp
  | cons c cs =>
    by_cases hc : c = '\n'
    · simp [hc]
    · simp [crlfChars_cons hc, hc]

/-- Any other character is at the start of both or of neither. -/
theorem head?_crlfChars_iff {c : Char} (hfeed : c ≠ '\n') (hreturn : c ≠ '\r') {cs : List Char} :
    (crlfChars cs).head? = some c ↔ cs.head? = some c := by
  cases cs with
  | nil => simp
  | cons d cs =>
    by_cases hd : d = '\n'
    · simp [hd, Ne.symm hfeed, Ne.symm hreturn]
    · rw [crlfChars_cons hd, List.head?_cons, List.head?_cons]

@[simp] theorem crlfChars_eq_nil_iff {cs : List Char} : crlfChars cs = [] ↔ cs = [] := by
  cases cs with
  | nil => simp
  | cons c cs =>
    by_cases hc : c = '\n'
    · simp [hc]
    · simp [crlfChars_cons hc]

theorem crlfChars_inj {as bs : List Char} (h : crlfChars as = crlfChars bs) : as = bs := by
  induction as generalizing bs with
  | nil => exact (crlfChars_eq_nil_iff.mp h.symm).symm
  | cons a as ih =>
    cases bs with
    | nil => exact crlfChars_eq_nil_iff.mp h
    | cons b bs =>
      by_cases ha : a = '\n'
      · by_cases hb : b = '\n'
        · rw [ha, hb, crlfChars_lineFeed, crlfChars_lineFeed, List.cons.injEq, List.cons.injEq] at h
          rw [ha, hb, ih h.2.2]
        · rw [ha, crlfChars_lineFeed, crlfChars_cons hb, List.cons.injEq] at h
          exact absurd (by rw [← h.2]; rfl) (head_crlfChars_ne bs)
      · by_cases hb : b = '\n'
        · rw [hb, crlfChars_lineFeed, crlfChars_cons ha, List.cons.injEq] at h
          exact absurd (by rw [h.2]; rfl) (head_crlfChars_ne as)
        · rw [crlfChars_cons ha, crlfChars_cons hb, List.cons.injEq] at h
          rw [h.1, ih h.2]

/-- Only a text without line feeds becomes one. -/
theorem crlfChars_eq_iff {cs word : List Char} (h : '\n' ∉ word) :
    crlfChars cs = word ↔ cs = word := by
  constructor
  · intro heq
    exact crlfChars_inj (heq.trans (crlfChars_eq_self h).symm)
  · rintro rfl
    exact crlfChars_eq_self h

/-! ## Parts -/

theorem lineFeed_not_mem_take_succ {c : Char} (hc : c ≠ '\n') {n : Nat} {cs : List Char}
    (h : '\n' ∉ cs.take n) : '\n' ∉ (c :: cs).take (n + 1) := by
  rw [List.take_succ_cons, List.mem_cons, not_or]
  exact ⟨Ne.symm hc, h⟩

/-- A text without line ends is found in the same places. -/
theorem startsWith_crlfChars {word : List Char} (hfeed : '\n' ∉ word) (hreturn : '\r' ∉ word)
    (cs : List Char) : Name.startsWith word (crlfChars cs) = Name.startsWith word cs := by
  induction word generalizing cs with
  | nil => simp [Name.startsWith]
  | cons w word ih =>
    rw [List.mem_cons, not_or] at hfeed hreturn
    cases cs with
    | nil => rfl
    | cons c cs =>
      by_cases hc : c = '\n'
      · have hw : (w == '\n') = false := beq_eq_false_iff_ne.mpr (Ne.symm hfeed.1)
        have hw' : (w == '\r') = false := beq_eq_false_iff_ne.mpr (Ne.symm hreturn.1)
        simp [hc, Name.startsWith, hw, hw']
      · rw [crlfChars_cons hc, Name.startsWith, Name.startsWith, ih hfeed.2 hreturn.2]

theorem occursInChars_crlfChars {word : List Char} (hword : word ≠ []) (hfeed : '\n' ∉ word)
    (hreturn : '\r' ∉ word) (cs : List Char) :
    Name.occursInChars word (crlfChars cs) = Name.occursInChars word cs := by
  induction cs with
  | nil => rfl
  | cons c cs ih =>
    have hstart := startsWith_crlfChars hfeed hreturn (c :: cs)
    by_cases hc : c = '\n'
    · -- No place starts at the line feed that was there before.
      have hmiddle : Name.startsWith word ('\n' :: crlfChars cs) = false := by
        obtain ⟨w, ws, rfl⟩ := List.exists_cons_of_ne_nil hword
        rw [List.mem_cons, not_or] at hfeed
        rw [Name.startsWith, beq_eq_false_iff_ne.mpr (Ne.symm hfeed.1), Bool.false_and]
      rw [hc, crlfChars_lineFeed] at hstart ⊢
      rw [Name.occursInChars, Name.occursInChars, Name.occursInChars, hstart, hmiddle, ih,
        Bool.false_or]
    · rw [crlfChars_cons hc] at hstart ⊢
      rw [Name.occursInChars, Name.occursInChars, hstart, ih]

/-! ## Texts -/

/-- The text with a carriage return in front of every line feed. -/
def crlf (text : String) : String := String.ofList (crlfChars text.toList)

@[simp] theorem toList_crlf (text : String) : (crlf text).toList = crlfChars text.toList :=
  String.toList_ofList

@[simp] theorem crlf_ofList (cs : List Char) :
    crlf (String.ofList cs) = String.ofList (crlfChars cs) := by
  rw [crlf, String.toList_ofList]

@[simp] theorem crlf_append (a b : String) : crlf (a ++ b) = crlf a ++ crlf b := by
  simp [crlf]

theorem crlf_eq_self {text : String} (h : '\n' ∉ text.toList) : crlf text = text := by
  rw [crlf, crlfChars_eq_self h, String.ofList_toList]

theorem crlf_inj (a b : String) (h : crlf a = crlf b) : a = b := by
  have hchars := congrArg String.toList h
  rw [toList_crlf, toList_crlf] at hchars
  exact String.toList_inj.mp (crlfChars_inj hchars)

@[simp] theorem crlf_inj_iff {a b : String} : crlf a = crlf b ↔ a = b :=
  ⟨crlf_inj a b, congrArg crlf⟩

theorem crlf_eq_iff {text word : String} (h : '\n' ∉ word.toList) :
    crlf text = word ↔ text = word := by
  rw [← String.toList_inj, toList_crlf, crlfChars_eq_iff h, String.toList_inj]

/-! ## Offsets -/

/-- The place of byte `n` of the characters behind their conversion. -/
def crlfOffset : List Char → Nat → Nat
  | [], n => n
  | c :: cs, n =>
    if n < c.utf8Size then n
    else byteLength (crlfChars [c]) + crlfOffset cs (n - c.utf8Size)

theorem crlfOffset_zero (cs : List Char) : crlfOffset cs 0 = 0 := by
  cases cs with
  | nil => rfl
  | cons c cs => rw [crlfOffset, if_pos c.utf8Size_pos]

/-- A byte behind a front part goes behind the conversion of that part. -/
theorem crlfOffset_append (as bs : List Char) (n : Nat) :
    crlfOffset (as ++ bs) (byteLength as + n) = byteLength (crlfChars as) + crlfOffset bs n := by
  induction as with
  | nil => simp
  | cons a as ih =>
    have hsplit := crlfChars_append [a] as
    rw [List.singleton_append] at hsplit
    rw [List.cons_append, crlfOffset, byteLength_cons, if_neg (by omega), hsplit, byteLength_append,
      show a.utf8Size + byteLength as + n - a.utf8Size = byteLength as + n by omega, ih]
    omega

theorem crlfOffset_byteLength (as bs : List Char) :
    crlfOffset (as ++ bs) (byteLength as) = byteLength (crlfChars as) := by
  have hoffset := crlfOffset_append as bs 0
  rw [crlfOffset_zero] at hoffset
  exact hoffset

theorem utf8Size_le_byteLength_crlfChars (c : Char) : c.utf8Size ≤ byteLength (crlfChars [c]) := by
  by_cases hc : c = '\n'
  · subst hc
    decide
  · simp [crlfChars_cons hc]

theorem crlfOffset_mono (cs : List Char) {m n : Nat} (h : m ≤ n) :
    crlfOffset cs m ≤ crlfOffset cs n := by
  induction cs generalizing m n with
  | nil => exact h
  | cons c cs ih =>
    have hsize := utf8Size_le_byteLength_crlfChars c
    rw [crlfOffset, crlfOffset]
    by_cases hm : m < c.utf8Size
    · rw [if_pos hm]
      by_cases hn : n < c.utf8Size
      · rw [if_pos hn]
        exact h
      · rw [if_neg hn]
        omega
    · have hle := ih (m := m - c.utf8Size) (n := n - c.utf8Size) (by omega)
      rw [if_neg hm, if_neg (by omega)]
      omega

theorem crlfOffset_max (cs : List Char) (m n : Nat) :
    crlfOffset cs (max m n) = max (crlfOffset cs m) (crlfOffset cs n) := by
  rcases Nat.le_total m n with h | h
  · rw [Nat.max_eq_right h, Nat.max_eq_right (crlfOffset_mono cs h)]
  · rw [Nat.max_eq_left h, Nat.max_eq_left (crlfOffset_mono cs h)]

end AnySome.Text
