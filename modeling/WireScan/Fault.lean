import WireScan.Text.Utf8

/-!
# Faults

Why an operation on a buffer, a cursor or a mark was refused. Only a lack of data can be mended
by waiting for more input (`Fault.wantsMore`).
-/
namespace WireScan

/-- Why an operation was refused. -/
inductive Fault
  /-- The bytes do not fit the buffer. -/
  | noRoom
  /-- Fewer bytes lie ahead than the operation needs. -/
  | tooFew (requested available : Nat)
  /-- The bytes ahead are not what was asked for. -/
  | mismatch
  /-- A range lies outside the bytes, or a mark belongs to a window that is gone. -/
  | outOfBounds
  /-- Bytes asked for as text are not UTF-8. -/
  | badText (cause : Utf8.Fault)
deriving DecidableEq, Repr

namespace Fault

/-- More input could turn the refusal into a success. -/
def wantsMore : Fault → Bool
  | tooFew _ _ => true
  | _ => false

/-- The fault of the text below a fault, if it has one. -/
def textFault? : Fault → Option Utf8.Fault
  | badText cause => some cause
  | _ => none

/-- The wording of a fault. -/
def message : Fault → String
  | noRoom => "buffer capacity exceeded"
  | tooFew requested available =>
    "insufficient data: requested " ++ toString requested ++ " bytes, " ++ toString available
      ++ " available"
  | mismatch => "no match at current position"
  | outOfBounds => "token refers to a stale window"
  | badText cause => "invalid UTF-8: " ++ cause.message

end Fault

/-- The text that bytes encode, or the fault that they encode none. -/
def textOf (bytes : List UInt8) : Except Fault String :=
  (Utf8.decode bytes).mapError Fault.badText

/-- Bytes that are no text lack no data. -/
theorem wantsMore_of_textOf {bytes : List UInt8} {fault : Fault}
    (refused : textOf bytes = .error fault) : fault.wantsMore = false := by
  unfold textOf at refused
  cases decoded : Utf8.decode bytes <;> rw [decoded] at refused <;> cases refused
  rfl

end WireScan
