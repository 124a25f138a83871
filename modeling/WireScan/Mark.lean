import WireScan.Tape

/-!
# Marks

A mark remembers where reading stood on a tape. The bytes it marks are those read since, so
their end moves with the tape. A mark is stale once its window was emptied, which the epoch
and the start of the window tell, and it marks nothing while reading stands behind it.
-/
namespace WireScan

/-- Where reading stood on a tape. -/
structure Mark where
  /-- Where the window started. -/
  windowStart : Nat
  /-- Where reading stood. -/
  pos : Nat
  /-- The epoch of the window. -/
  epoch : UInt32
deriving DecidableEq, Repr

namespace Mark

/-- The mark of where reading stands. -/
def ofTape (tape : Tape) : Mark :=
  ⟨tape.window.start, tape.window.pos, tape.window.epoch⟩

/-- The position in its window at which the marked bytes begin. -/
def start (mark : Mark) : Nat := mark.pos - mark.windowStart

/-- The position at which the marked bytes end. -/
def stop (_ : Mark) (tape : Tape) : Nat := tape.position

/-- How many bytes are marked. -/
def size (mark : Mark) (tape : Tape) : Nat := mark.stop tape - mark.start

/-- The mark belongs to the window of the tape, and reading does not stand behind it. -/
abbrev Current (mark : Mark) (tape : Tape) : Prop :=
  tape.window.epoch = mark.epoch ∧ tape.window.start = mark.windowStart ∧
    mark.pos ≤ tape.window.pos

/-- The marked bytes. -/
def bytes (mark : Mark) (tape : Tape) : Except Fault (List UInt8) :=
  if mark.Current tape then
    match tape.slice? mark.pos tape.window.pos with
    | some bytes => .ok bytes
    | none => .error .outOfBounds
  else .error .outOfBounds

/-- The marked bytes as text. -/
def text (mark : Mark) (tape : Tape) : Except Fault String :=
  match mark.bytes tape with
  | .ok bytes => textOf bytes
  | .error fault => .error fault

/-- A current mark marks the stored bytes from it to where reading stands. -/
theorem bytes_eq {mark : Mark} {tape : Tape} (valid : tape.Valid) (current : mark.Current tape) :
    mark.bytes tape = .ok ((tape.bytes.toList.take tape.window.pos).drop mark.pos) := by
  have inside := Nat.le_trans valid.pos_le_stop valid.stop_le_length
  rw [bytes, if_pos current, Tape.slice?_eq current.2.2 inside]

/-- A mark that is not current marks nothing. -/
theorem bytes_eq_error {mark : Mark} {tape : Tape} (stale : ¬mark.Current tape) :
    mark.bytes tape = .error .outOfBounds := by
  rw [bytes, if_neg stale]

end Mark

end WireScan
