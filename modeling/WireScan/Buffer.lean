import WireScan.Buffer.Fixed
import WireScan.Buffer.Growing

/-!
# Buffers

A buffer is one of three kinds: bytes lent by their owner, a store of fixed capacity, or a store
that grows. All that reading sees of any of them is its tape; putting a read tape back
(`Buffer.withTape`) leaves the rest of the buffer as it was.
-/
namespace WireScan

/-- Bytes to read, and where they are kept. -/
inductive Buffer
  /-- Bytes lent by their owner, which no operation adds to. -/
  | lent (tape : Tape)
  /-- A store of fixed capacity. -/
  | fixed (buffer : Fixed)
  /-- A store that grows up to a limit. -/
  | growing (buffer : Growing)
deriving DecidableEq, Repr

namespace Buffer

/-- The bytes of a buffer with the window over them. -/
def tape : Buffer → Tape
  | lent tape => tape
  | fixed buffer => buffer.tape
  | growing buffer => buffer.tape

/-- The buffer with another tape. -/
def withTape (tape : Tape) : Buffer → Buffer
  | lent _ => lent tape
  | fixed buffer => fixed { buffer with tape }
  | growing buffer => growing { buffer with tape }

/-- The window over the bytes of a buffer. -/
def window (buffer : Buffer) : Window := buffer.tape.window

/-- The tape that was put in is the tape of the buffer. -/
@[simp] theorem tape_withTape (tape : Tape) (buffer : Buffer) :
    (buffer.withTape tape).tape = tape := by
  cases buffer <;> rfl

/-- Putting the tape of a buffer back changes nothing. -/
@[simp] theorem withTape_tape (buffer : Buffer) : buffer.withTape buffer.tape = buffer := by
  cases buffer <;> rfl

/-- Of two tapes put in, the later one stays. -/
@[simp] theorem withTape_withTape (first second : Tape) (buffer : Buffer) :
    (buffer.withTape first).withTape second = buffer.withTape second := by
  cases buffer <;> rfl

end Buffer

end WireScan
