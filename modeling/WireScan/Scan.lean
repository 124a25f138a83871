import WireScan.Note
import WireScan.Tape

/-!
# Scans of the bytes ahead

A scan is a function of the bytes ahead: it comes to a value or a fault, to the bytes it left,
and to notes. It never sees where those bytes are stored, so it works alike over every buffer.
Scans follow one another by `Scan.bind`; a fault ends the sequence where it arose. The three
elementary scans read one byte (`byte`), given bytes (`exactly`) and all bytes up to a stop
set (`upTo`), which alone passes over bytes when it fails. `Tape.scan` runs a scan over a tape
and reads the tape as far as the scan went.
-/
namespace WireScan

/-- What a scan came to. -/
structure Outcome (α : Type) where
  /-- The value read, or why none was. -/
  result : Except Fault α
  /-- The bytes left ahead. -/
  rest : List UInt8
  /-- What was noted on the way. -/
  notes : List Note

/-- A reading of the bytes ahead. -/
def Scan (α : Type) : Type := List UInt8 → Outcome α

namespace Scan

variable {α β : Type}

/-- The scan that reads nothing. -/
def pure (value : α) : Scan α := fun input => ⟨.ok value, input, []⟩

/-- The scan that reads nothing and fails. -/
def fail (fault : Fault) : Scan α := fun input => ⟨.error fault, input, []⟩

/-- One scan and then the scan that its value selects, over the bytes left. -/
def bind (first : Scan α) (second : α → Scan β) : Scan β := fun input =>
  let ⟨result, rest, notes⟩ := first input
  match result with
  | .error fault => ⟨.error fault, rest, notes⟩
  | .ok value =>
    let later := second value rest
    { later with notes := notes ++ later.notes }

instance : Monad Scan where
  pure := pure
  bind := bind

/-- After a failed scan nothing more is read. -/
theorem bind_error {first : Scan α} {second : α → Scan β} {input rest : List UInt8}
    {fault : Fault} {notes : List Note} (failed : first input = ⟨.error fault, rest, notes⟩) :
    (first >>= second) input = ⟨.error fault, rest, notes⟩ := by
  simp [Bind.bind, bind, failed]

/-- After a scan that came to a value the next one reads the bytes left. -/
theorem bind_ok {first : Scan α} {second : α → Scan β} {input rest : List UInt8} {value : α}
    {notes : List Note} (read : first input = ⟨.ok value, rest, notes⟩) :
    (first >>= second) input =
      { second value rest with notes := notes ++ (second value rest).notes } := by
  simp [Bind.bind, bind, read]

/-- What a scan leaves is the end of what it was given. -/
def LeavesEnd (scan : Scan α) : Prop := ∀ input, (scan input).rest <:+ input

/-- A scan that comes to a value reads at least one byte. -/
def Consumes (scan : Scan α) : Prop :=
  ∀ (input rest : List UInt8) (value : α) (notes : List Note),
    scan input = ⟨.ok value, rest, notes⟩ → rest.length < input.length

/-- A sequence leaves the end of its input when its parts do. -/
theorem LeavesEnd.bind {first : Scan α} {second : α → Scan β} (before : first.LeavesEnd)
    (after : ∀ value, (second value).LeavesEnd) : (first >>= second).LeavesEnd := by
  intro input
  have left := before input
  match read : first input with
  | ⟨.error fault, rest, notes⟩ =>
    rw [read] at left
    rw [bind_error read]
    exact left
  | ⟨.ok value, rest, notes⟩ =>
    rw [read] at left
    rw [bind_ok read]
    exact (after value rest).trans left

/-- A sequence reads a byte when its first part does. -/
theorem Consumes.bind {first : Scan α} {second : α → Scan β} (before : first.Consumes)
    (after : ∀ value, (second value).LeavesEnd) : (first >>= second).Consumes := by
  intro input rest value notes came
  match read : first input with
  | ⟨.error fault, middle, noted⟩ => rw [bind_error read] at came; cases came
  | ⟨.ok passed, middle, noted⟩ =>
    rw [bind_ok read, Outcome.mk.injEq] at came
    have left := (after passed middle).length_le
    rw [came.2.1] at left
    exact Nat.lt_of_le_of_lt left (before _ _ _ _ read)

/-- A sequence reads a byte when its second part does. -/
theorem LeavesEnd.bind_consumes {first : Scan α} {second : α → Scan β}
    (before : first.LeavesEnd) (after : ∀ value, (second value).Consumes) :
    (first >>= second).Consumes := by
  intro input rest value notes came
  have left := (before input).length_le
  match read : first input with
  | ⟨.error fault, middle, noted⟩ => rw [bind_error read] at came; cases came
  | ⟨.ok passed, middle, noted⟩ =>
    rw [bind_ok read, Outcome.mk.injEq] at came
    rw [read] at left
    obtain ⟨result, tail, _⟩ := came
    have shorter : rest.length < middle.length :=
      after passed _ _ _ (second passed middle).notes (by rw [← result, ← tail])
    exact Nat.lt_of_lt_of_le shorter left

/-- Reading nothing leaves everything. -/
theorem pure_leavesEnd (value : α) : (Pure.pure value : Scan α).LeavesEnd :=
  fun input => List.suffix_refl input

/-- One byte equal to a given one under a rule. -/
def byte (expected : UInt8) (rule : CaseRule) : Scan Unit
  | [] => ⟨.error (.tooFew 1 0), [], []⟩
  | next :: rest =>
    if rule.equal expected next then ⟨.ok (), rest, []⟩ else ⟨.error .mismatch, next :: rest, []⟩

/-- Given bytes, each exactly. Too few bytes ahead are a lack of data whatever they are. -/
def exactly (expected : List UInt8) : Scan Unit := fun input =>
  if expected.isPrefixOf input then ⟨.ok (), input.drop expected.length, []⟩
  else if input.length < expected.length then
    ⟨.error (.tooFew expected.length input.length), input, []⟩
  else ⟨.error .mismatch, input, []⟩

/-- All bytes before the first in a stop set. Without such a byte the scan fails, and all bytes
are passed over. -/
def upTo (stops : StopSet) (rule : CaseRule) : Scan (List UInt8) := fun input =>
  match input.dropWhile (!stops.contains rule ·) with
  | [] => ⟨.error .mismatch, [], [.ranOut input.length]⟩
  | rest => ⟨.ok (input.takeWhile (!stops.contains rule ·)), rest, []⟩

/-- All bytes at the front of which a test holds; none is fine. -/
def skipWhile (test : UInt8 → Bool) : Scan Unit := fun input => ⟨.ok (), input.dropWhile test, []⟩

/-- One byte read is one byte less. -/
theorem byte_consumes (expected : UInt8) (rule : CaseRule) :
    (byte expected rule).Consumes := by
  intro input rest value notes read
  cases input with
  | nil => cases read
  | cons next tail =>
    rw [byte] at read
    split at read <;> cases read
    exact Nat.lt_succ_self _

/-- Reading given bytes leaves those after them. -/
theorem exactly_leavesEnd (expected : List UInt8) : (exactly expected).LeavesEnd := by
  intro input
  unfold exactly
  split
  · exact List.drop_suffix _ _
  · split <;> exact List.suffix_refl _

/-- Reading up to a stop set leaves the bytes from the stop byte on. -/
theorem upTo_leavesEnd (stops : StopSet) (rule : CaseRule) : (upTo stops rule).LeavesEnd := by
  intro input
  unfold upTo
  split
  · exact List.nil_suffix
  · exact List.dropWhile_suffix _

/-- Passing over bytes leaves those after them. -/
theorem skipWhile_leavesEnd (test : UInt8 → Bool) : (skipWhile test).LeavesEnd :=
  fun _ => List.dropWhile_suffix _

end Scan

/-- What a scan over a tape came to. -/
structure Passage (α : Type) where
  /-- The value read, or why none was. -/
  result : Except Fault α
  /-- The tape read as far as the scan went. -/
  tape : Tape
  /-- What was noted on the way. -/
  notes : List Note

/-- Run a scan over the bytes ahead on a tape. -/
def Tape.scan {α : Type} (scan : Scan α) (tape : Tape) : Passage α :=
  let input := tape.ahead
  let outcome := scan input
  ⟨outcome.result, tape.skip (input.length - outcome.rest.length), outcome.notes⟩

/-- A scan keeps the bytes of the tape. -/
@[simp] theorem Tape.scan_bytes {α : Type} (scan : Scan α) (tape : Tape) :
    (tape.scan scan).tape.bytes = tape.bytes := rfl

end WireScan
