/-!
# Indices into a byte store

An index is a 64-bit word, kept here as a natural number, with the word's rule stated at each
operation that could leave its range: a sum is either cut off at the largest index or refused,
and a doubled size is cut off. Cutting off never shows below a limit that is itself an index
(`min_saturatingDouble`), and a sum is refused exactly when it is no index
(`checkedAdd_eq_none_iff`). No store has room for all the bytes that indices tell apart
(`largestStore`).
-/
namespace WireScan.Index

/-- The largest index. -/
def largest : Nat := 0xFFFFFFFFFFFFFFFF

/-- The most bytes that one store can have room for, half of what indices reach. -/
def largestStore : Nat := 0x7FFFFFFFFFFFFFFF

/-- The sum of two indices, cut off at the largest index. -/
def saturatingAdd (left right : Nat) : Nat := min (left + right) largest

/-- The sum of two indices, refused when it is no index. -/
def checkedAdd (left right : Nat) : Option Nat :=
  if left + right ≤ largest then some (left + right) else none

/-- Twice a size, cut off at the largest index. -/
def saturatingDouble (size : Nat) : Nat := min (2 * size) largest

/-- A sum that is an index is not cut off. -/
theorem saturatingAdd_eq {left right : Nat} (fits : left + right ≤ largest) :
    saturatingAdd left right = left + right := Nat.min_eq_left fits

/-- An accepted sum is the full sum. -/
theorem checkedAdd_eq_some_iff {left right sum : Nat} :
    checkedAdd left right = some sum ↔ left + right ≤ largest ∧ sum = left + right := by
  simp [checkedAdd, eq_comm]

/-- A sum is refused exactly when it is no index. -/
theorem checkedAdd_eq_none_iff {left right : Nat} :
    checkedAdd left right = none ↔ largest < left + right := by
  simp [checkedAdd]

/-- Below a limit that is an index, the cut-off of doubling never shows. -/
theorem min_saturatingDouble {size limit : Nat} (index : limit ≤ largest) :
    min (saturatingDouble size) limit = min (2 * size) limit := by
  unfold saturatingDouble
  omega

end WireScan.Index
