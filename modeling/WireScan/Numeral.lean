import WireScan.Numeral.Binary64
import WireScan.Numeral.Spelling
import WireScan.Scan

/-!
# Numerals

A numeral is an optional sign and then a word (`infinity`, `inf` or `nan` in any case) or
decimal digits with an optional point and an optional power of ten. The longest numeral at the
front is read: a point belongs to it when it has a digit on one side, an exponent when it has a
digit of its own. Blank bytes before it are passed over. The number that a numeral stands for is
kept exactly, as a whole number times a power of ten, until `Numeral.value` rounds it. All digits
count but those of a power of ten that is large already (`Numeral.powerSize`).
-/
namespace WireScan

/-- What a numeral says. -/
inductive Numeral
  /-- Not a number; its sign says nothing. -/
  | nan
  /-- An infinity. -/
  | infinity (negative : Bool)
  /-- Digits, as a whole number, times a power of ten. -/
  | decimal (negative : Bool) (digits : Nat) (exponent : Int)
deriving DecidableEq, Repr

namespace Numeral

/-- The number nearest to what a numeral says, with its sign. -/
def value : Numeral → Binary64
  | nan => .nan
  | infinity negative => .infinity negative
  | decimal negative digits exponent => .signed negative (Binary64.ofDecimal digits exponent)

/-- The bytes after a word, whose letters may stand in any case. -/
def afterWord? : List UInt8 → List UInt8 → Option (List UInt8)
  | [], input => some input
  | _ :: _, [] => none
  | letter :: word, next :: rest =>
    if CaseRule.folded.equal letter next then afterWord? word rest else none

/-- An optional sign, true for a minus, and the bytes after it. -/
def sign : List UInt8 → Bool × List UInt8
  | [] => (false, [])
  | next :: rest =>
    if next = '-'.toUInt8 then (true, rest)
    else if next = '+'.toUInt8 then (false, rest)
    else (false, next :: rest)

/-- The digits after a point, and the bytes after them. The point is no part of the
numeral when no digit stands before it or after it. -/
def fraction (whole : List UInt8) : List UInt8 → List UInt8 × List UInt8
  | [] => ([], [])
  | next :: rest =>
    let digits := rest.takeWhile Byte.isDigit
    if next = '.'.toUInt8 ∧ ¬(whole = [] ∧ digits = []) then (digits, rest.dropWhile Byte.isDigit)
    else ([], next :: rest)

/-- A power of ten, and the bytes after it. Without a digit it is no part of the numeral; all its
digits are read, whether they count or not. -/
def power : List UInt8 → Int × List UInt8
  | [] => (0, [])
  | next :: rest =>
    let (negative, unsigned) := sign rest
    let digits := unsigned.takeWhile Byte.isDigit
    if CaseRule.folded.equal 'e'.toUInt8 next ∧ digits ≠ [] then
      let size : Int := powerSize digits
      (if negative then -size else size, unsigned.dropWhile Byte.isDigit)
    else (0, next :: rest)

/-- A decimal numeral without its sign, and the bytes after it. -/
def decimal? (negative : Bool) (input : List UInt8) : Option (Numeral × List UInt8) :=
  let whole := input.takeWhile Byte.isDigit
  let (fraction, rest) := fraction whole (input.dropWhile Byte.isDigit)
  if whole = [] ∧ fraction = [] then none
  else
    let (power, rest) := power rest
    some (.decimal negative (spelled (whole ++ fraction)) (power - fraction.length), rest)

/-- A numeral without its sign, and the bytes after it. -/
def unsigned? (negative : Bool) (input : List UInt8) : Option (Numeral × List UInt8) :=
  match afterWord? (Byte.ofAscii "infinity") input with
  | some rest => some (.infinity negative, rest)
  | none =>
    match afterWord? (Byte.ofAscii "inf") input with
    | some rest => some (.infinity negative, rest)
    | none =>
      match afterWord? (Byte.ofAscii "nan") input with
      | some rest => some (.nan, rest)
      | none => decimal? negative input

/-- The numeral at the front, and the bytes after it. -/
def read? (input : List UInt8) : Option (Numeral × List UInt8) :=
  let (negative, rest) := sign input
  unsigned? negative rest

/-- Blank bytes and a numeral, read as the number nearest to it. Nothing is read where no
numeral follows the blank bytes. -/
def scan : Scan Binary64 := fun input =>
  match read? (input.dropWhile Byte.isBlank) with
  | some (numeral, rest) => ⟨.ok numeral.value, rest, []⟩
  | none => ⟨.error .mismatch, input, []⟩

end Numeral

end WireScan
