/-!
# Numbers spelled in digits

A run of decimal digits spells a whole number, the highest digit first: one more digit makes ten
times the number and that digit (`spelled_concat`). Digits are gathered in a part that stays
short before they join the number, so even a run of a million digits takes few multiplications
of long numbers. The size of a power of ten is counted only until it is large: below 65536 it is
what its digits spell (`powerSize_eq_spelled`), and from there on further digits are passed over.
-/
namespace WireScan.Numeral

/-- What a decimal digit stands for. -/
def digitValue (digit : UInt8) : Nat := digit.toNat - 48

/-- A number of which some digits were read, in two parts. -/
structure Spelling where
  /-- The digits read before the recent ones, as a number. -/
  settled : Nat
  /-- The recent digits, as a number. -/
  recent : Nat
  /-- What the settled digits are worth among the recent ones, a power of ten. -/
  scale : Nat
deriving DecidableEq, Repr

namespace Spelling

/-- No digit was read. -/
def empty : Spelling := ⟨0, 0, 1⟩

/-- The number that the digits spell. -/
def value (spelling : Spelling) : Nat := spelling.settled * spelling.scale + spelling.recent

/-- The scale at which the recent digits join the settled ones. -/
def longest : Nat := 1 <<< 4096

/-- A number after one more of its digits. -/
def push (spelling : Spelling) (digit : UInt8) : Spelling :=
  let recent := 10 * spelling.recent + digitValue digit
  let scale := 10 * spelling.scale
  if scale < longest then ⟨spelling.settled, recent, scale⟩
  else ⟨spelling.settled * scale + recent, 0, 1⟩

/-- One more digit makes ten times the number and that digit. -/
theorem value_push (spelling : Spelling) (digit : UInt8) :
    (spelling.push digit).value = 10 * spelling.value + digitValue digit := by
  have moved : spelling.settled * (10 * spelling.scale) =
      10 * (spelling.settled * spelling.scale) := Nat.mul_left_comm _ _ _
  unfold push
  dsimp only
  split <;> simp only [value] <;> omega

end Spelling

/-- The whole number that digits spell, the highest first. -/
def spelled (digits : List UInt8) : Nat := (digits.foldl Spelling.push Spelling.empty).value

/-- No digits spell zero. -/
@[simp] theorem spelled_nil : spelled [] = 0 := rfl

/-- One more digit makes ten times the number and that digit. -/
theorem spelled_concat (digits : List UInt8) (digit : UInt8) :
    spelled (digits ++ [digit]) = 10 * spelled digits + digitValue digit := by
  rw [spelled, List.foldl_append]
  exact Spelling.value_push _ _

/-- The size from which on a power of ten is large and its further digits do not count. -/
def largeSize : Nat := 0x10000

/-- The size of a power of ten after one more of its digits. -/
def growSize (size : Nat) (digit : UInt8) : Nat :=
  if size < largeSize then 10 * size + digitValue digit else size

/-- The size of a power of ten that digits spell. Once it is large, further digits are read and
no longer counted. -/
def powerSize (digits : List UInt8) : Nat := digits.foldl growSize 0

/-- A large size stays as it is. -/
theorem foldl_growSize_of_large {size : Nat} (large : largeSize ≤ size) (digits : List UInt8) :
    digits.foldl growSize size = size := by
  induction digits with
  | nil => rfl
  | cons digit digits ih => rw [List.foldl_cons, growSize, if_neg (Nat.not_lt.mpr large), ih]

/-- A size that did not become large is exactly what its digits spell. -/
theorem powerSize_eq_spelled {digits : List UInt8} (small : powerSize digits < largeSize) :
    powerSize digits = spelled digits := by
  suffices counted : ∀ (size : Nat) (spelling : Spelling), size = spelling.value →
      digits.foldl growSize size < largeSize →
        digits.foldl growSize size = (digits.foldl Spelling.push spelling).value from
    counted 0 .empty rfl small
  clear small
  induction digits with
  | nil => exact fun _ _ same _ => same
  | cons digit digits ih =>
    intro size spelling same small
    have below : size < largeSize := by
      apply Nat.lt_of_not_le
      intro large
      rw [foldl_growSize_of_large large] at small
      exact Nat.not_lt.mpr large small
    refine ih _ _ ?_ small
    rw [growSize, if_pos below, same, Spelling.value_push]

end WireScan.Numeral
