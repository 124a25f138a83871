import WireScan.Note
import WireScan.Tape

/-!
# Buffers of fixed capacity

A buffer of fixed capacity takes bytes until one short of its capacity: a feed is accepted
exactly when fewer bytes than the capacity are stored after it (`feed_eq_ok_iff`). A buffer made
from bytes may be full from the start, and then refuses even an empty feed.
-/
namespace WireScan

/-- Stored bytes with a window, in a store of fixed capacity. -/
structure Fixed where
  /-- The bytes fed so far and the window over them. -/
  tape : Tape
  /-- The bytes the store has room for. -/
  capacity : Nat
deriving DecidableEq, Repr

namespace Fixed

/-- A buffer that holds nothing. -/
def empty (capacity : Nat) : Fixed := ⟨.empty, capacity⟩

/-- A buffer that holds given bytes, refused when they exceed the capacity. -/
def ofBytes (capacity : Nat) (bytes : List UInt8) : Except Fault Fixed :=
  if bytes.length ≤ capacity then .ok ⟨.ofBytes bytes, capacity⟩ else .error .noRoom

/-- How many bytes are stored. -/
def size (buffer : Fixed) : Nat := buffer.tape.bytes.size

/-- How many bytes can still be fed. -/
def free (buffer : Fixed) : Nat := buffer.capacity - buffer.size - 1

/-- A feed of the given length leaves fewer bytes stored than the capacity. -/
abbrev Admits (length : Nat) (buffer : Fixed) : Prop := buffer.size + length < buffer.capacity

/-- The buffer with bytes stored after all others, refused when they fill it. -/
def feed (data : List UInt8) (buffer : Fixed) : Except Fault Fixed :=
  if buffer.Admits data.length then .ok { buffer with tape := buffer.tape.append data }
  else .error .noRoom

/-- What a feed reports: its refusal. -/
def feedNotes (data : List UInt8) (buffer : Fixed) : List Note :=
  if buffer.Admits data.length then []
  else [.feedRefused data.length buffer.size buffer.capacity]

/-- The buffer with nothing stored, all of its capacity free again. -/
def clear (buffer : Fixed) : Fixed := { buffer with tape := buffer.tape.clear }

/-- Exactly the bytes that keep to the capacity make a buffer, which holds them. -/
theorem ofBytes_eq_ok_iff {capacity : Nat} {bytes : List UInt8} {buffer : Fixed} :
    ofBytes capacity bytes = .ok buffer ↔
      bytes.length ≤ capacity ∧ buffer = ⟨.ofBytes bytes, capacity⟩ := by
  by_cases fits : bytes.length ≤ capacity
  · simp [ofBytes, fits, eq_comm]
  · simp only [ofBytes, fits, ↓reduceIte, false_and, reduceCtorEq]

/-- A feed is accepted exactly when the bytes leave the buffer short of its capacity, and then
stores them. -/
theorem feed_eq_ok_iff {data : List UInt8} {buffer fed : Fixed} :
    buffer.feed data = .ok fed ↔
      buffer.Admits data.length ∧ fed = { buffer with tape := buffer.tape.append data } := by
  by_cases admitted : buffer.Admits data.length
  · simp [feed, admitted, eq_comm]
  · simp only [feed, admitted, ↓reduceIte, false_and, reduceCtorEq]

/-- A refused feed says that the capacity is exceeded. -/
theorem feed_eq_error_iff {data : List UInt8} {buffer : Fixed} {fault : Fault} :
    buffer.feed data = .error fault ↔
      ¬buffer.Admits data.length ∧ fault = .noRoom := by
  by_cases admitted : buffer.Admits data.length
  · simp [feed, admitted]
  · simp only [feed, admitted, ↓reduceIte, not_false_eq_true, true_and, Except.error.injEq, eq_comm]

/-- As long as the buffer is not full, a feed is accepted exactly when it fits the free bytes. -/
theorem admits_iff_le_free {length : Nat} {buffer : Fixed} (room : buffer.size < buffer.capacity) :
    buffer.Admits length ↔ length ≤ buffer.free := by
  unfold free
  omega

end Fixed

end WireScan
