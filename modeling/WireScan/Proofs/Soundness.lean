import WireScan.Buffer

/-!
# Sound buffers

A tape is sound when its window lies inside its store and the store has an index for every byte.
A buffer is sound when its tape is and what it stores keeps to its capacity. Every new buffer is
sound (`Buffer.New.sound`), and whatever adds to it or clears it keeps it so (`Fixed.Sound.feed`,
`Growing.Sound.write`). On a sound tape no index is cut off: reading moves the read position by
exactly the bytes read (`Tape.Sound.skip_eq`).
-/
namespace WireScan

/-- The window lies inside the store, and the bytes of the store can be counted. -/
structure Tape.Sound (tape : Tape) : Prop where
  /-- The window lies inside the store. -/
  valid : tape.Valid
  /-- The size of the store is an index. -/
  indexed : tape.bytes.size ≤ Index.largest

/-- What a buffer of fixed capacity stores fits it. -/
structure Fixed.Sound (buffer : Fixed) : Prop where
  /-- The window lies inside the store. -/
  valid : buffer.tape.Valid
  /-- No more is stored than there is room for. -/
  size_le : buffer.size ≤ buffer.capacity
  /-- The capacity is an index. -/
  indexed : buffer.capacity ≤ Index.largest

/-- What a growing buffer stores fits it, and it keeps to its limit. -/
structure Growing.Sound (buffer : Growing) : Prop where
  /-- The window lies inside the store. -/
  valid : buffer.tape.Valid
  /-- No more is stored than there is room for. -/
  size_le : buffer.size ≤ buffer.capacity
  /-- There is no more room than the limit. -/
  capacity_le : buffer.capacity ≤ buffer.limit
  /-- The limit is an index. -/
  indexed : buffer.limit ≤ Index.largest

/-- A sound buffer of any kind. -/
def Buffer.Sound : Buffer → Prop
  | .lent tape => tape.Sound
  | .fixed buffer => buffer.Sound
  | .growing buffer => buffer.Sound

/-- The buffers there are at first, made from what can be counted. -/
inductive Buffer.New : Buffer → Prop
  /-- Bytes lent as a whole. -/
  | lent (data : List UInt8) (indexed : data.length ≤ Index.largest) : New (.lent (.ofBytes data))
  /-- A range of lent bytes. -/
  | range {data : List UInt8} {start stop : Nat} {tape : Tape}
    (indexed : data.length ≤ Index.largest) (ranged : Tape.ofRange data start stop = .ok tape) :
    New (.lent tape)
  /-- A buffer of fixed capacity that holds nothing. -/
  | fixed (capacity : Nat) (indexed : capacity ≤ Index.largest) : New (.fixed (.empty capacity))
  /-- A buffer of fixed capacity that holds given bytes. -/
  | fixedOf {capacity : Nat} {data : List UInt8} {buffer : Fixed}
    (indexed : capacity ≤ Index.largest) (fits : Fixed.ofBytes capacity data = .ok buffer) :
    New (.fixed buffer)
  /-- A growing buffer that holds nothing. -/
  | growing (room limit : Nat) (indexed : limit ≤ Index.largest) :
    New (.growing (.empty room limit))

namespace Tape

/-- The data stands after all other bytes after an append. -/
@[simp] theorem toList_append (data : List UInt8) (tape : Tape) :
    (tape.append data).bytes.toList = tape.bytes.toList ++ data := Array.toList_appendList

/-- As many bytes are stored after an append as before it and in the data. -/
@[simp] theorem size_append (data : List UInt8) (tape : Tape) :
    (tape.append data).bytes.size = tape.bytes.size + data.length := by
  rw [← Array.length_toList, toList_append, List.length_append, Array.length_toList]

/-- Appending in two parts is appending both at once. -/
theorem append_append (first second : List UInt8) (tape : Tape) :
    (tape.append first).append second = tape.append (first ++ second) := by
  have bytes : tape.bytes ++ first ++ second = tape.bytes ++ (first ++ second) := by
    apply Array.ext'
    rw [Array.toList_appendList, Array.toList_appendList, Array.toList_appendList,
      List.append_assoc]
  simp only [append, bytes]

/-- After bytes were read the bytes after them lie ahead. -/
theorem ahead_further {tape : Tape} (valid : tape.Valid) {count : Nat}
    (inside : count ≤ tape.available) :
    ahead { tape with window := { tape.window with pos := tape.window.pos + count } } =
      tape.ahead.drop count := by
  obtain ⟨ordered, reached, bounded⟩ := valid
  have within : tape.window.pos + count ≤ tape.window.stop := by
    unfold available Window.available at inside
    omega
  rw [ahead_eq ⟨ordered, reached, bounded⟩, List.drop_drop]
  exact ahead_eq ⟨Nat.le_trans ordered (Nat.le_add_right _ _), within, bounded⟩

namespace Sound

variable {tape : Tape}

/-- Reading on a sound tape moves the read position by the bytes read and changes nothing else. -/
theorem skip_eq (sound : tape.Sound) {count : Nat} (inside : count ≤ tape.available) :
    tape.skip count =
      { tape with window := { tape.window with pos := tape.window.pos + count } } := by
  obtain ⟨⟨ordered, reached, bounded⟩, indexed⟩ := sound
  unfold available Window.available at inside
  rw [skip, Index.saturatingAdd_eq (by omega), restore_eq]
  exact ⟨Nat.le_trans ordered (Nat.le_add_right _ _), by dsimp only; omega, bounded⟩

end Sound

end Tape

/-- A sound buffer of fixed capacity is sound after a feed. -/
theorem Fixed.Sound.feed {buffer fed : Fixed} (sound : buffer.Sound) {data : List UInt8}
    (accepted : buffer.feed data = .ok fed) : fed.Sound := by
  obtain ⟨admitted, rfl⟩ := Fixed.feed_eq_ok_iff.mp accepted
  refine ⟨Tape.append_valid sound.valid data, ?_, sound.indexed⟩
  change (buffer.tape.append data).bytes.size ≤ buffer.capacity
  rw [Tape.size_append]
  exact Nat.le_of_lt admitted

/-- A sound growing buffer has room for what it stores and more after it grows. -/
theorem Growing.Sound.write {buffer written : Growing} (sound : buffer.Sound) {data : List UInt8}
    (accepted : buffer.write data = .ok written) : written.Sound := by
  obtain ⟨valid, size_le, capacity_le, indexed⟩ := sound
  have stored : (buffer.tape.append data).bytes.size = buffer.size + data.length :=
    Tape.size_append data buffer.tape
  unfold Growing.write Growing.admission at accepted
  dsimp only at accepted
  by_cases roomy : buffer.size + data.length ≤ buffer.capacity
  · rw [if_pos roomy] at accepted
    cases accepted
    exact ⟨Tape.append_valid valid data, Nat.le_trans (Nat.le_of_eq stored) roomy, capacity_le,
      indexed⟩
  · by_cases refused : buffer.limit < buffer.size + data.length
    · rw [if_neg roomy, if_pos refused] at accepted
      cases accepted
    · rw [if_neg roomy, if_neg refused] at accepted
      cases accepted
      have positive : 0 < max buffer.capacity 1 := by omega
      have room := Growing.needed_le_fit indexed positive (Nat.le_of_not_lt refused)
      have within : max buffer.capacity 1 ≤ buffer.limit := by omega
      exact ⟨Tape.append_valid valid data, Nat.le_trans (Nat.le_of_eq stored) room,
        Growing.fit_le within, indexed⟩

/-- A sound growing buffer takes whatever keeps to its limit. -/
theorem Growing.Sound.write_of_fits {buffer : Growing} (sound : buffer.Sound) {data : List UInt8}
    (fits : buffer.size + data.length ≤ buffer.limit) :
    ∃ written, buffer.write data = .ok written ∧ written.tape = buffer.tape.append data ∧
      written.limit = buffer.limit ∧ written.Sound := by
  have kept : ∃ capacity,
      buffer.write data = .ok { buffer with tape := buffer.tape.append data, capacity } := by
    unfold Growing.write Growing.admission
    dsimp only
    by_cases roomy : buffer.size + data.length ≤ buffer.capacity
    · rw [if_pos roomy]
      exact ⟨buffer.capacity, rfl⟩
    · rw [if_neg roomy, if_neg (Nat.not_lt.mpr fits)]
      exact ⟨_, rfl⟩
  obtain ⟨capacity, accepted⟩ := kept
  exact ⟨_, accepted, rfl, rfl, sound.write accepted⟩

/-- A sound growing buffer refuses whatever passes its limit. -/
theorem Growing.Sound.write_of_exceeds {buffer : Growing} (sound : buffer.Sound)
    {data : List UInt8} (exceeds : buffer.limit < buffer.size + data.length) :
    buffer.write data = .error .noRoom := by
  have crowded := Nat.lt_of_le_of_lt sound.capacity_le exceeds
  exact Growing.write_eq_error_iff.mpr ⟨⟨crowded, exceeds⟩, rfl⟩

/-- A sound growing buffer is sound after the parts of a text that it took. -/
theorem Growing.Sound.writeParts {buffer : Growing} (sound : buffer.Sound) (parts : List String) :
    (buffer.writeParts parts).buffer.Sound := by
  induction parts generalizing buffer with
  | nil => exact sound
  | cons part rest ih =>
    rw [Growing.writeParts]
    cases written : buffer.write (Utf8.encode part) with
    | error fault => exact sound
    | ok next => exact ih (sound.write written)

namespace Buffer

/-- Every new buffer is sound. -/
theorem New.sound {buffer : Buffer} (new : buffer.New) : buffer.Sound := by
  cases new with
  | lent data indexed =>
    exact ⟨Tape.ofBytes_valid data, by simpa [Tape.ofBytes] using indexed⟩
  | range indexed ranged =>
    refine ⟨Tape.ofRange_valid ranged, ?_⟩
    obtain ⟨_, rfl⟩ := Tape.ofRange_eq_ok_iff.mp ranged
    simpa using indexed
  | fixed capacity indexed =>
    exact ⟨Window.empty_within _, Nat.zero_le _, indexed⟩
  | fixedOf indexed fits =>
    obtain ⟨small, rfl⟩ := Fixed.ofBytes_eq_ok_iff.mp fits
    exact ⟨Tape.ofBytes_valid _, by simpa [Fixed.size, Tape.ofBytes] using small, indexed⟩
  | growing room limit indexed =>
    exact ⟨Window.empty_within _, Nat.zero_le _, Growing.empty_capacity_le room limit, indexed⟩

/-- The tape of a sound buffer is sound. -/
theorem Sound.tape {buffer : Buffer} (sound : buffer.Sound) : buffer.tape.Sound := by
  cases buffer with
  | lent tape => exact sound
  | fixed buffer => exact ⟨sound.valid, Nat.le_trans sound.size_le sound.indexed⟩
  | growing buffer =>
    exact ⟨sound.valid, Nat.le_trans sound.size_le (Nat.le_trans sound.capacity_le sound.indexed)⟩

/-- A sound buffer stays sound when its window is moved inside the bytes it stores. -/
theorem Sound.withTape {buffer : Buffer} (sound : buffer.Sound) {tape : Tape} (valid : tape.Valid)
    (same : tape.bytes = buffer.tape.bytes) : (buffer.withTape tape).Sound := by
  cases buffer with
  | lent old => exact ⟨valid, same ▸ sound.indexed⟩
  | fixed buffer =>
    refine ⟨valid, ?_, sound.indexed⟩
    change tape.bytes.size ≤ buffer.capacity
    rw [same]
    exact sound.size_le
  | growing buffer =>
    refine ⟨valid, ?_, sound.capacity_le, sound.indexed⟩
    change tape.bytes.size ≤ buffer.capacity
    rw [same]
    exact sound.size_le

end Buffer

end WireScan
