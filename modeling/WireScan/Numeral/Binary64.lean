/-!
# Binary64 numbers

A binary64 number other than NaN is a sign and a magnitude field of 63 bits, and larger fields
stand for larger magnitudes. `ofRatio` gives the field of the number nearest to a ratio of
naturals, of two nearest ones the field that is even: the ratio is counted in units of the least
positive number, 2 ^ -1074, and every doubling past 2 ^ 53 of those units halves the precision.
A field past the last finite one is the field of infinity.
-/
namespace WireScan

/-- A binary64 number. -/
inductive Binary64
  /-- Not a number. -/
  | nan
  /-- A number, or an infinity, by its sign and magnitude field. -/
  | signed (negative : Bool) (field : Nat)
deriving DecidableEq, Repr

namespace Binary64

/-- The magnitude field of infinity: every exponent bit set and no other. -/
def infiniteField : Nat := 2047 <<< 52

/-- An infinity. -/
def infinity (negative : Bool) : Binary64 := signed negative infiniteField

/-- The 64 bits of a number, with one pattern for NaN. -/
def bits : Binary64 → Nat
  | nan => infiniteField + 1 <<< 51
  | signed negative field => if negative then 1 <<< 63 + field else field

/-- A ratio rounded to the nearest natural, a half to the even one. -/
def roundHalfEven (numerator denominator : Nat) : Nat :=
  let quotient := numerator / denominator
  let twice := 2 * (numerator % denominator)
  if twice < denominator ∨ (twice = denominator ∧ quotient % 2 = 0) then quotient
  else quotient + 1

/-- The magnitude field of the number nearest to a ratio, of two nearest the even field. -/
def ofRatio (numerator denominator : Nat) : Nat :=
  let units := numerator <<< 1074
  let binade := (units / denominator).log2 - 52
  min (binade <<< 52 + roundHalfEven units (denominator <<< binade)) infiniteField

/-- The magnitude field of the number nearest to a whole number of powers of ten. Of a number
with `n` bits, `10 ^ e` times it is at least `2 ^ (3 * e)` and `10 ^ -e` times it is below
`2 ^ (n - 3 * e)`, so exponents far outside the range are settled without computing a power. -/
def ofDecimal (digits : Nat) (exponent : Int) : Nat :=
  if digits = 0 then 0
  else match exponent with
    | .ofNat tens => if 1024 ≤ 3 * tens then infiniteField else ofRatio (digits * Nat.pow 10 tens) 1
    | .negSucc fewer =>
      let tenths := fewer + 1
      if digits.log2 + 1 + 1075 ≤ 3 * tenths then 0 else ofRatio digits (Nat.pow 10 tenths)

/-- Rounding is off by half at the most: the rounded value lies within half of the ratio. -/
theorem roundHalfEven_near {numerator denominator : Nat} (positive : 0 < denominator) :
    2 * numerator ≤ (2 * roundHalfEven numerator denominator + 1) * denominator ∧
      (2 * roundHalfEven numerator denominator) * denominator ≤ 2 * numerator + denominator := by
  have parts := Nat.div_add_mod numerator denominator
  have small := Nat.mod_lt numerator positive
  rw [Nat.mul_comm] at parts
  unfold roundHalfEven
  generalize numerator / denominator = quotient at *
  generalize numerator % denominator = remainder at *
  subst parts
  dsimp only
  split <;> constructor <;> simp only [Nat.add_mul, Nat.mul_assoc] <;> omega

end Binary64

end WireScan
