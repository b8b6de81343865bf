/-!
# Rounding

Durations are measured in whole nanoseconds, held as binary fractions of
seconds with 53 significant bits, and shown with two decimal places. Both
steps round to the nearest value, and a tie goes to the even neighbour. All of
it is exact arithmetic on natural numbers.

## Main results

* `roundDiv_bounds` — a rounded quotient is within half a unit of the exact
  one.
-/

namespace AnySome.Numeric

/-- The natural number nearest to `num / den`; of two equally near ones the
even one. -/
def roundDiv (num den : Nat) : Nat :=
  let quotient := num / den
  let rest := num % den
  if den < 2 * rest then quotient + 1
  else if 2 * rest = den then quotient + quotient % 2
  else quotient

/-- A rounded quotient is within half a unit of the exact one. -/
theorem roundDiv_bounds (num : Nat) {den : Nat} (h : 0 < den) :
    2 * num ≤ 2 * roundDiv num den * den + den ∧
      2 * roundDiv num den * den ≤ 2 * num + den := by
  have hdiv := Nat.div_add_mod num den
  have hlt := Nat.mod_lt num h
  generalize hq : num / den = q at *
  generalize hr : num % den = r at *
  have hmod : q % 2 = 0 ∨ q % 2 = 1 := by omega
  have hcomm : den * q = q * den := Nat.mul_comm _ _
  simp only [roundDiv, hq, hr]
  split
  · rw [Nat.mul_assoc, Nat.add_mul]
    omega
  split
  · rcases hmod with hm | hm <;> rw [hm, Nat.mul_assoc, Nat.add_mul] <;> omega
  · rw [Nat.mul_assoc]
    omega

/-- The fraction `mantissa / 2 ^ shift`. -/
structure BinaryFraction where
  mantissa : Nat
  shift : Nat
deriving DecidableEq, Repr

namespace BinaryFraction

/-- Number of significant bits. -/
def precision : Nat := 53

/-- The fraction with at most `precision` significant bits that is nearest to
`num / den`. Whole numbers beyond the precision keep as many bits. -/
def round (num den : Nat) : BinaryFraction :=
  if num = 0 then ⟨0, 0⟩
  else
    -- `shift` makes the scaled quotient fill the precision, or miss it by one bit
    let shift := precision + Nat.log2 den - Nat.log2 num
    let shift := if (num <<< (shift - 1)) / den < 1 <<< (precision - 1) then shift else shift - 1
    let excess := Nat.log2 ((num <<< shift) / den) + 1 - precision
    ⟨roundDiv (num <<< shift) (den <<< excess) <<< excess, shift⟩

/-- The sum, rounded. -/
def add (f g : BinaryFraction) : BinaryFraction :=
  round ((f.mantissa <<< g.shift) + (g.mantissa <<< f.shift)) (1 <<< (f.shift + g.shift))

/-- The fraction with two decimal places. -/
def showHundredths (f : BinaryFraction) : String :=
  let hundredths := roundDiv (100 * f.mantissa) (1 <<< f.shift)
  let cents := hundredths % 100
  toString (hundredths / 100) ++ "." ++ (if cents < 10 then "0" else "") ++ toString cents

end BinaryFraction

/-- Nanoseconds in a second. -/
def second : Nat := 1000000000

/-- A duration in seconds with two decimal places. Whole seconds and the rest
are rounded on their own, and so is their sum. -/
def showSeconds (nanoseconds : Nat) : String :=
  let whole := BinaryFraction.round (nanoseconds / second) 1
  let rest := BinaryFraction.round (nanoseconds % second) second
  (whole.add rest).showHundredths

end AnySome.Numeric
