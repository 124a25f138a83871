import WireScan.Note
import WireScan.Tape

/-!
# Buffers that grow

A growing buffer takes bytes as long as no more than its limit are stored. Its capacity doubles
as often as the stored bytes ask for (`fit`), starting from one at the least, and never passes
the limit; clearing the buffer keeps the capacity. A write is accepted exactly when the bytes
fit the limit, or the room there already is (`write_eq_error_iff`). There is no buffer that begins
with more room than a store can have (`new?`).
-/
namespace WireScan

/-- Stored bytes with a window, in a store that grows up to a limit. -/
structure Growing where
  /-- The bytes written so far and the window over them. -/
  tape : Tape
  /-- The bytes the store has room for now. -/
  capacity : Nat
  /-- The bytes the store may ever have room for. -/
  limit : Nat
deriving DecidableEq, Repr

namespace Growing

/-- The limit of a buffer that was given none. -/
def defaultLimit : Nat := 0xFFFFFFFF

/-- A buffer that holds nothing, with room for the given number of bytes within its limit. -/
def empty (room limit : Nat) : Growing := ⟨.empty, min room limit, limit⟩

/-- A buffer that holds nothing, where a store can have the room it is to begin with. -/
def new? (room limit : Nat) : Option Growing :=
  if min room limit ≤ Index.largestStore then some (empty room limit) else none

/-- How many bytes are stored. -/
def size (buffer : Growing) : Nat := buffer.tape.bytes.size

/-- The capacity after one round of growth: doubled, within the limit. -/
def widen (limit capacity : Nat) : Nat := min (Index.saturatingDouble capacity) limit

/-- The capacity after as many rounds of growth as the needed bytes ask for. A round that gains
nothing is the last. -/
def fit (limit needed capacity : Nat) : Nat :=
  if capacity < needed ∧ capacity < widen limit capacity then
    fit limit needed (widen limit capacity)
  else capacity
termination_by needed - capacity

/-- What the store does to make room for bytes. -/
inductive Admission
  /-- There is room. -/
  | roomy
  /-- The store grows to a capacity. -/
  | grows (capacity : Nat)
  /-- More bytes are needed than the limit allows. -/
  | refused (needed : Nat)
deriving DecidableEq, Repr

/-- How bytes of the given length are admitted. -/
def admission (length : Nat) (buffer : Growing) : Admission :=
  let needed := buffer.size + length
  if needed ≤ buffer.capacity then .roomy
  else if buffer.limit < needed then .refused needed
  else .grows (fit buffer.limit needed (max buffer.capacity 1))

/-- The buffer with bytes stored after all others, refused when they do not fit the limit. -/
def write (data : List UInt8) (buffer : Growing) : Except Fault Growing :=
  match buffer.admission data.length with
  | .roomy => .ok { buffer with tape := buffer.tape.append data }
  | .grows capacity => .ok { buffer with tape := buffer.tape.append data, capacity }
  | .refused _ => .error .noRoom

/-- What a write reports: the growth of the store, or its refusal. -/
def writeNotes (data : List UInt8) (buffer : Growing) : List Note :=
  match buffer.admission data.length with
  | .roomy => []
  | .grows capacity => [.grew buffer.capacity capacity]
  | .refused needed => [.writeRefused needed buffer.limit]

/-- What became of a text written part by part. -/
structure Written where
  /-- The buffer after the last part that was accepted. -/
  buffer : Growing
  /-- Every part was accepted. -/
  complete : Bool
  /-- What the writes reported. -/
  notes : List Note
deriving DecidableEq, Repr

/-- Write the parts of a text in order, up to the first part that is refused. -/
def writeParts : List String → Growing → Written
  | [], buffer => ⟨buffer, true, []⟩
  | part :: rest, buffer =>
    let notes := buffer.writeNotes (Utf8.encode part)
    match buffer.write (Utf8.encode part) with
    | .error _ => ⟨buffer, false, notes⟩
    | .ok next =>
      let later := writeParts rest next
      { later with notes := notes ++ later.notes }

/-- The buffer with nothing stored, keeping its capacity. -/
def clear (buffer : Growing) : Growing := { buffer with tape := buffer.tape.clear }

/-- A new buffer has no more room than its limit. -/
theorem empty_capacity_le (room limit : Nat) : (empty room limit).capacity ≤ limit :=
  Nat.min_le_right _ _

/-- A round of growth stays within the limit. -/
theorem widen_le (limit capacity : Nat) : widen limit capacity ≤ limit := Nat.min_le_right _ _

/-- Below a limit that is an index, a round of growth doubles or meets the limit. -/
theorem widen_eq {limit : Nat} (index : limit ≤ Index.largest) (capacity : Nat) :
    widen limit capacity = min (2 * capacity) limit := Index.min_saturatingDouble index

/-- A round of growth gains room below the limit. -/
theorem lt_widen {limit capacity : Nat} (index : limit ≤ Index.largest) (positive : 0 < capacity)
    (below : capacity < limit) : capacity < widen limit capacity := by
  rw [widen_eq index]
  omega

/-- Growth never takes room away. -/
theorem le_fit (limit needed capacity : Nat) : capacity ≤ fit limit needed capacity := by
  fun_induction fit limit needed capacity with
  | case1 capacity more grown => exact Nat.le_trans (Nat.le_of_lt more.2) grown
  | case2 => exact Nat.le_refl _

/-- Growth ends within the limit. -/
theorem fit_le {limit needed capacity : Nat} (within : capacity ≤ limit) :
    fit limit needed capacity ≤ limit := by
  fun_induction fit limit needed capacity with
  | case1 capacity more grown => exact grown (widen_le _ _)
  | case2 => exact within

/-- Growth makes room for every need within the limit. -/
theorem needed_le_fit {limit needed capacity : Nat} (index : limit ≤ Index.largest)
    (positive : 0 < capacity) (within : needed ≤ limit) : needed ≤ fit limit needed capacity := by
  fun_induction fit limit needed capacity with
  | case1 capacity more grown => exact grown (Nat.lt_of_le_of_lt (Nat.zero_le _) more.2)
  | case2 capacity stuck =>
    by_cases short : capacity < needed
    · exact absurd ⟨short, lt_widen index positive (by omega)⟩ stuck
    · omega

/-- A write is refused exactly when the bytes fit neither the room there is nor the limit. -/
theorem write_eq_error_iff {data : List UInt8} {buffer : Growing} {fault : Fault} :
    buffer.write data = .error fault ↔
      (buffer.capacity < buffer.size + data.length ∧ buffer.limit < buffer.size + data.length) ∧
        fault = .noRoom := by
  unfold write admission
  by_cases roomy : buffer.size + data.length ≤ buffer.capacity
  · simp [roomy, Nat.not_lt.mpr roomy]
  · by_cases refused : buffer.limit < buffer.size + data.length
    · simp [roomy, refused, Nat.lt_of_not_le roomy, eq_comm]
    · simp [roomy, refused]

/-- An accepted write stores the bytes and nothing else. -/
theorem write_tape {data : List UInt8} {buffer written : Growing}
    (accepted : buffer.write data = .ok written) : written.tape = buffer.tape.append data := by
  unfold write at accepted
  split at accepted <;> cases accepted <;> rfl

end Growing

end WireScan
