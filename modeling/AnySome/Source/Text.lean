/-!
# Byte-measured text

Every offset in this library counts UTF-8 bytes, while the code that reads
source text walks over lists of characters. This module is the bridge: the
byte size of a list of characters, the partial operations that drop or take
a number of bytes, and the slices built from them.

A number of bytes that ends inside a character, or beyond the text, has no
answer (`none`); the slices turn that into the empty text, so that slicing
is total.

Offsets and sizes are natural numbers without a bound. A program that keeps
them in 32 bits has the same offsets for texts of fewer than 2^32 bytes, and
only of such texts does what is proved here speak for it.

## Main results

* `byteLength_append` — byte sizes add up.
* `eq_of_mem_encode` — the byte of an ASCII character is in no other character.
* `dropBytes?_append`, `takeBytes?_append` — cutting after the bytes of a
  front part gives back the rest and the front part.
-/

namespace AnySome.Text

/-! ## Sizes -/

/-- Number of UTF-8 bytes that the characters `cs` take. -/
def byteLength : List Char → Nat
  | [] => 0
  | c :: cs => c.utf8Size + byteLength cs

@[simp] theorem byteLength_nil : byteLength [] = 0 := rfl

@[simp] theorem byteLength_cons (c : Char) (cs : List Char) :
    byteLength (c :: cs) = c.utf8Size + byteLength cs := rfl

/-- Byte sizes add up over concatenation. -/
@[simp] theorem byteLength_append (as bs : List Char) :
    byteLength (as ++ bs) = byteLength as + byteLength bs := by
  induction as with
  | nil => simp
  | cons a as ih => simp [ih, Nat.add_assoc]

/-! ## Bytes -/

/-- The UTF-8 bytes of the characters `cs`. -/
def bytes (cs : List Char) : List UInt8 := cs.flatMap String.utf8EncodeChar

@[simp] theorem bytes_nil : bytes [] = [] := rfl

@[simp] theorem bytes_cons (c : Char) (cs : List Char) :
    bytes (c :: cs) = String.utf8EncodeChar c ++ bytes cs := List.flatMap_cons

/-- There are as many bytes as are counted. -/
@[simp] theorem length_bytes (cs : List Char) : (bytes cs).length = byteLength cs := by
  induction cs with
  | nil => rfl
  | cons c cs ih => simp [ih]

/-- A character of ASCII is one byte, its code. -/
theorem encode_of_ascii {c : Char} (h : c.toNat < 0x80) :
    String.utf8EncodeChar c = [UInt8.ofNat c.toNat] := by
  have hv : c.val.toNat ≤ 127 := Nat.le_of_lt_succ h
  simp only [String.utf8EncodeChar, if_pos hv]
  rfl

/-- Any other character has no byte of ASCII. -/
theorem le_of_mem_encode {c : Char} (h : 0x80 ≤ c.toNat) {b : UInt8}
    (hb : b ∈ String.utf8EncodeChar c) : 0x80 ≤ b.toNat := by
  have hv : ¬c.val.toNat ≤ 127 := Nat.not_le_of_lt h
  simp only [String.utf8EncodeChar, if_neg hv] at hb
  split at hb
  · simp only [List.mem_cons, List.not_mem_nil, or_false] at hb
    rcases hb with rfl | rfl <;> simp only [UInt8.toNat_ofNat'] <;> omega
  split at hb
  · simp only [List.mem_cons, List.not_mem_nil, or_false] at hb
    rcases hb with rfl | rfl | rfl <;> simp only [UInt8.toNat_ofNat'] <;> omega
  · simp only [List.mem_cons, List.not_mem_nil, or_false] at hb
    rcases hb with rfl | rfl | rfl | rfl <;> simp only [UInt8.toNat_ofNat'] <;> omega

/-- The byte of an ASCII character is in no other character. -/
theorem eq_of_mem_encode {a c : Char} (ha : a.toNat < 0x80)
    (h : UInt8.ofNat a.toNat ∈ String.utf8EncodeChar c) : c = a := by
  have hcode : (UInt8.ofNat a.toNat).toNat = a.toNat := by
    rw [UInt8.toNat_ofNat']
    omega
  by_cases hc : c.toNat < 0x80
  · rw [encode_of_ascii hc, List.mem_singleton] at h
    have hcode' : (UInt8.ofNat c.toNat).toNat = c.toNat := by
      rw [UInt8.toNat_ofNat']
      omega
    rw [← Char.toNat_inj, ← hcode, h, hcode']
  · have hle := le_of_mem_encode (Nat.le_of_not_lt hc) h
    omega

/-! ## Cutting at a byte offset -/

/-- What is left of `cs` after its first `n` bytes, if a character ends there. -/
def dropBytes? : Nat → List Char → Option (List Char)
  | 0, cs => some cs
  | _ + 1, [] => none
  | n + 1, c :: cs =>
    if c.utf8Size ≤ n + 1 then dropBytes? (n + 1 - c.utf8Size) cs else none

/-- The first `n` bytes of `cs`, if a character ends there. -/
def takeBytes? : Nat → List Char → Option (List Char)
  | 0, _ => some []
  | _ + 1, [] => none
  | n + 1, c :: cs =>
    if c.utf8Size ≤ n + 1 then (takeBytes? (n + 1 - c.utf8Size) cs).map (c :: ·) else none

@[simp] theorem dropBytes?_zero (cs : List Char) : dropBytes? 0 cs = some cs := by
  cases cs <;> rfl

@[simp] theorem takeBytes?_zero (cs : List Char) : takeBytes? 0 cs = some [] := by
  cases cs <;> rfl

/-- A whole character is dropped at once. -/
theorem dropBytes?_cons (n : Nat) (c : Char) (cs : List Char) :
    dropBytes? (c.utf8Size + n) (c :: cs) = dropBytes? n cs := by
  have hpos := c.utf8Size_pos
  obtain ⟨m, hm⟩ : ∃ m, c.utf8Size + n = m + 1 := ⟨c.utf8Size + n - 1, by omega⟩
  rw [hm, dropBytes?, if_pos (by omega)]
  congr 1
  omega

/-- A whole character is taken at once. -/
theorem takeBytes?_cons (n : Nat) (c : Char) (cs : List Char) :
    takeBytes? (c.utf8Size + n) (c :: cs) = (takeBytes? n cs).map (c :: ·) := by
  have hpos := c.utf8Size_pos
  obtain ⟨m, hm⟩ : ∃ m, c.utf8Size + n = m + 1 := ⟨c.utf8Size + n - 1, by omega⟩
  rw [hm, takeBytes?, if_pos (by omega)]
  congr 2
  omega

/-- Dropping the bytes of a front part leaves the rest. -/
@[simp] theorem dropBytes?_append (as bs : List Char) :
    dropBytes? (byteLength as) (as ++ bs) = some bs := by
  induction as with
  | nil => simp
  | cons a as ih => rw [byteLength_cons, List.cons_append, dropBytes?_cons, ih]

/-- Taking the bytes of a front part gives that part. -/
@[simp] theorem takeBytes?_append (as bs : List Char) :
    takeBytes? (byteLength as) (as ++ bs) = some as := by
  induction as with
  | nil => simp
  | cons a as ih => rw [byteLength_cons, List.cons_append, takeBytes?_cons, ih]; rfl

/-! ## Slices -/

/-- The characters between two byte offsets; none if the offsets are out of
order, beyond the text or inside a character. -/
def cut (cs : List Char) (start stop : Nat) : List Char :=
  if start ≤ stop then ((dropBytes? start cs).bind (takeBytes? (stop - start))).getD [] else []

/-- The text between two byte offsets, empty when there is no such text. -/
def slice (text : String) (start stop : Nat) : String :=
  String.ofList (cut text.toList start stop)

/-- The text from a byte offset on, empty when there is no such text. -/
def sliceFrom (text : String) (start : Nat) : String :=
  String.ofList ((dropBytes? start text.toList).getD [])

end AnySome.Text
