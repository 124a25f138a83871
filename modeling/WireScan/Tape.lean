import WireScan.Byte
import WireScan.Fault
import WireScan.Window

/-!
# Tapes

A tape is a store of bytes and a window over it: all that a reader sees of a buffer. Reading
moves the window and never the bytes. Every change of the window is confined to the store
(`restore`), so a tape whose window lies inside its store (`Tape.Valid`) stays one under every
operation here, and on such a tape each view is a part of the store: the window's bytes
(`contents_eq`) and the bytes ahead (`ahead_eq`).
-/
namespace WireScan

/-- Stored bytes and a window over them. -/
structure Tape where
  /-- The stored bytes. -/
  bytes : Array UInt8
  /-- The window over them. -/
  window : Window
deriving DecidableEq, Repr

namespace Tape

/-- A tape over given bytes, with nothing read yet. -/
def ofBytes (bytes : List UInt8) : Tape := ⟨bytes.toArray, .spanning 0 bytes.length⟩

/-- A tape over a range of given bytes, refused when the range is reversed or ends after them. -/
def ofRange (bytes : List UInt8) (start stop : Nat) : Except Fault Tape :=
  if start ≤ stop ∧ stop ≤ bytes.length then .ok ⟨bytes.toArray, .spanning start stop⟩
  else .error .outOfBounds

/-- A tape that holds nothing. -/
def empty : Tape := ⟨#[], .empty⟩

/-- The window lies inside the store. -/
abbrev Valid (tape : Tape) : Prop := tape.window.Within tape.bytes.size

/-! ## Looking -/

/-- The bytes of a range, none when the range is reversed or ends after the store. -/
def slice? (start stop : Nat) (tape : Tape) : Option (List UInt8) :=
  if start ≤ stop ∧ stop ≤ tape.bytes.size then some (tape.bytes.extract start stop).toList
  else none

/-- The bytes of the window. -/
def contents (tape : Tape) : List UInt8 :=
  (tape.slice? tape.window.start tape.window.stop).getD []

/-- The bytes ahead of the read position. -/
def ahead (tape : Tape) : List UInt8 :=
  (tape.slice? tape.window.pos tape.window.stop).getD []

/-- The bytes of the window from an offset on, nothing when the offset lies outside it. -/
def contentsFrom (offset : Nat) (tape : Tape) : List UInt8 :=
  match Index.checkedAdd tape.window.start offset with
  | none => []
  | some start => (tape.slice? start tape.window.stop).getD []

/-- How far reading has come from the start of the window. -/
def position (tape : Tape) : Nat := tape.window.position

/-- How many bytes lie ahead. -/
def available (tape : Tape) : Nat := tape.window.available

/-- No byte lies ahead. -/
def atEnd (tape : Tape) : Bool := tape.available == 0

/-- The next byte, none at the end of the window. -/
def peek? (tape : Tape) : Option UInt8 :=
  if tape.window.stop ≤ tape.window.pos then none else tape.bytes[tape.window.pos]?

/-- The byte after the next one, none unless both lie in the window. -/
def peekSecond? (tape : Tape) : Option UInt8 :=
  if tape.available < 2 then none else tape.bytes[tape.window.pos + 1]?

/-- The next two bytes end a line. -/
def atLineEnd (tape : Tape) : Bool :=
  tape.peek? == some Byte.cr && tape.peekSecond? == some Byte.lf

/-- The distance from an earlier position, zero when the position is not an earlier one. -/
def distanceFrom (earlier : Nat) (tape : Tape) : Nat := tape.position - earlier

/-- The distance from the position of one tape to the position of another. -/
def distanceTo (tape other : Tape) : Nat := other.position - tape.position

/-! ## Moving -/

/-- The tape with another window, confined to the store. -/
def restore (window : Window) (tape : Tape) : Tape :=
  { tape with window := window.confine tape.bytes.size }

/-- The tape with its window emptied: bytes that arrive later start a window of their own. -/
def reset (tape : Tape) : Tape := tape.restore tape.window.renewed

/-- The tape read a number of bytes further. -/
def skip (count : Nat) (tape : Tape) : Tape :=
  tape.restore { tape.window with pos := Index.saturatingAdd tape.window.pos count }

/-- The tape read exactly a number of bytes further, refused when fewer lie ahead. -/
def advance (count : Nat) (tape : Tape) : Except Fault Tape :=
  if tape.available < count then .error (.tooFew count tape.available)
  else .ok (tape.skip count)

/-- The next byte and the tape read past it, none at the end of the window. -/
def take? (tape : Tape) : Option (UInt8 × Tape) :=
  tape.peek?.map fun byte => (byte, tape.skip 1)

/-! ## Changing the store -/

/-- The tape with bytes stored after all others, and the window ending where the store ends. -/
def append (data : List UInt8) (tape : Tape) : Tape :=
  let bytes := tape.bytes ++ data
  ⟨bytes, { tape.window with stop := bytes.size }⟩

/-- The tape with nothing stored, its window empty and in the next epoch. -/
def clear (tape : Tape) : Tape := ⟨#[], tape.window.cleared⟩

/-! ## Laws -/

/-- A tape over given bytes is valid. -/
theorem ofBytes_valid (bytes : List UInt8) : (ofBytes bytes).Valid :=
  ⟨Nat.le_refl _, Nat.zero_le _, Nat.le_refl _⟩

/-- Exactly the ordered ranges inside the bytes are accepted. -/
theorem ofRange_eq_ok_iff {bytes : List UInt8} {start stop : Nat} {tape : Tape} :
    ofRange bytes start stop = .ok tape ↔
      (start ≤ stop ∧ stop ≤ bytes.length) ∧ tape = ⟨bytes.toArray, .spanning start stop⟩ := by
  by_cases inside : start ≤ stop ∧ stop ≤ bytes.length
  · simp [ofRange, inside, eq_comm]
  · simp only [ofRange, inside, ↓reduceIte, false_and, reduceCtorEq]

/-- A tape over a range is valid. -/
theorem ofRange_valid {bytes : List UInt8} {start stop : Nat} {tape : Tape}
    (ranged : ofRange bytes start stop = .ok tape) : tape.Valid := by
  obtain ⟨⟨ordered, inside⟩, rfl⟩ := ofRange_eq_ok_iff.mp ranged
  exact ⟨Nat.le_refl _, ordered, inside⟩

/-- Changing the window keeps the bytes. -/
@[simp] theorem restore_bytes (window : Window) (tape : Tape) :
    (tape.restore window).bytes = tape.bytes := rfl

/-- Emptying the window keeps the bytes. -/
@[simp] theorem reset_bytes (tape : Tape) : tape.reset.bytes = tape.bytes := rfl

/-- Reading keeps the bytes. -/
@[simp] theorem skip_bytes (count : Nat) (tape : Tape) : (tape.skip count).bytes = tape.bytes := rfl

/-- A changed window lies inside the store, whatever it was. -/
theorem restore_valid (window : Window) (tape : Tape) : (tape.restore window).Valid :=
  window.confine_within _

/-- A window inside the store is taken as it is. -/
theorem restore_eq {window : Window} {tape : Tape} (within : window.Within tape.bytes.size) :
    tape.restore window = { tape with window } := by
  rw [restore, Window.confine_eq_self within]

/-- Appending keeps a tape valid. -/
theorem append_valid {tape : Tape} (valid : tape.Valid) (data : List UInt8) :
    (tape.append data).Valid := by
  obtain ⟨ordered, reached, inside⟩ := valid
  refine ⟨ordered, ?_, Nat.le_refl _⟩
  simp only [append, ← Array.length_toList, Array.toList_appendList, List.length_append]
  simp only [Array.length_toList]
  omega

/-- A cleared tape is valid. -/
theorem clear_valid (tape : Tape) : tape.clear.Valid :=
  ⟨Nat.le_refl _, Nat.le_refl _, Nat.le_refl _⟩

/-- A range inside the store is that part of it. -/
theorem slice?_eq {tape : Tape} {start stop : Nat} (ordered : start ≤ stop)
    (inside : stop ≤ tape.bytes.size) :
    tape.slice? start stop = some ((tape.bytes.toList.take stop).drop start) := by
  simp [slice?, ordered, inside, Array.toList_extract, List.extract_eq_take_drop, List.drop_take]

/-- The window of a valid tape is the store from its start to its stop. -/
theorem contents_eq {tape : Tape} (valid : tape.Valid) :
    tape.contents = (tape.bytes.toList.take tape.window.stop).drop tape.window.start := by
  rw [contents, slice?_eq (Nat.le_trans valid.start_le_pos valid.pos_le_stop) valid.stop_le_length]
  rfl

/-- The bytes ahead on a valid tape are the store from the read position to the stop. -/
theorem ahead_eq {tape : Tape} (valid : tape.Valid) :
    tape.ahead = (tape.bytes.toList.take tape.window.stop).drop tape.window.pos := by
  rw [ahead, slice?_eq valid.pos_le_stop valid.stop_le_length]
  rfl

/-- As many bytes lie ahead as the window says. -/
theorem length_ahead {tape : Tape} (valid : tape.Valid) :
    tape.ahead.length = tape.available := by
  have inside := valid.stop_le_length
  simp only [ahead_eq valid, List.length_drop, List.length_take, Array.length_toList, available,
    Window.available]
  omega

end Tape

end WireScan
