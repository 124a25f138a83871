import Mathlib.Algebra.Ring.Nat
import Mathlib.Data.List.Chain
import WireScan.Proofs.Soundness

/-!
# How growth ends

A store that is short of room is widened round by round (`Growing.Widens`). The rounds know nothing
of their end: as long as the size is short there is another, also where it would gain nothing. What
ends them is that a need keeps to the limit. Then every round gains (`Growing.gains_widen`), the
width of an index never shows, and after at most 64 rounds there is room for the need
(`Growing.Growth`). Seen as it lies in memory (`Growing.Cells`), a store that grew so still has
every byte that was written and a place for every byte that is pending, so of a write nothing but
the limit is ever in the way (`Growing.growth_ends`).
-/
namespace WireScan.Growing

/-! ## Rounds -/

/-- A size is widened as long as it is short of what is needed, and so goes through other sizes. -/
inductive Widens (limit needed : Nat) : Nat → List Nat → Prop
  /-- The size is enough. -/
  | enough {size : Nat} (reached : needed ≤ size) : Widens limit needed size []
  /-- The size is short. It is widened, and so is what comes of it. -/
  | round {size : Nat} {later : List Nat} (short : size < needed)
    (goes_on : Widens limit needed (widen limit size) later) :
    Widens limit needed size (widen limit size :: later)

/-- What a round of growth gains. -/
structure Gains (limit before after : Nat) : Prop where
  /-- The size rises. -/
  rises : before < after
  /-- It is doubled exactly, within the limit. -/
  doubled : after = min (2 * before) limit

variable {limit needed size : Nat} {sizes : List Nat}

/-- A round that is needed gains, as long as the need keeps to the limit. -/
theorem gains_widen (index : limit ≤ Index.largest) (within : needed ≤ limit)
    (positive : 0 < size) (short : size < needed) : Gains limit size (widen limit size) :=
  ⟨lt_widen index positive (Nat.lt_of_lt_of_le short within), widen_eq index size⟩

/-- Rounds that are needed end, and they end where growth does. -/
theorem exists_widens (index : limit ≤ Index.largest) (within : needed ≤ limit)
    (positive : 0 < size) :
    ∃ sizes, Widens limit needed size sizes ∧ sizes.getLastD size = fit limit needed size := by
  fun_induction fit limit needed size with
  | case1 size more ih =>
    obtain ⟨later, widens, last⟩ := ih (Nat.lt_of_le_of_lt (Nat.zero_le _) more.2)
    exact ⟨_, .round more.1 widens, (List.getLastD_cons ..).trans last⟩
  | case2 size stuck =>
    have reached : needed ≤ size := by
      refine Nat.le_of_not_lt fun short => stuck ⟨short, ?_⟩
      exact (gains_widen index within positive short).rises
    exact ⟨[], .enough reached, rfl⟩

namespace Widens

/-- A size goes through the same sizes every time. -/
theorem unique (widens : Widens limit needed size sizes) {others : List Nat}
    (also : Widens limit needed size others) : sizes = others := by
  induction widens generalizing others with
  | enough reached =>
    cases also with
    | enough _ => rfl
    | round short _ => exact absurd short (Nat.not_lt.mpr reached)
  | round short _ ih =>
    cases also with
    | enough reached => exact absurd short (Nat.not_lt.mpr reached)
    | round _ goes_on => rw [ih goes_on]

/-- Every round gains. -/
theorem isChain (widens : Widens limit needed size sizes) (index : limit ≤ Index.largest)
    (within : needed ≤ limit) (positive : 0 < size) :
    (size :: sizes).IsChain (Gains limit) := by
  induction widens with
  | enough _ => exact .singleton _
  | round short _ ih =>
    have gains := gains_widen index within positive short
    exact .cons_cons gains (ih (Nat.lt_trans positive gains.rises))

/-- Every size keeps to the limit. -/
theorem le_limit (widens : Widens limit needed size sizes) (begun : size ≤ limit) :
    ∀ reached ∈ size :: sizes, reached ≤ limit := by
  induction widens with
  | enough _ => exact fun reached among => List.mem_singleton.mp among ▸ begun
  | @round size later _ _ ih =>
    intro reached among
    rcases List.mem_cons.mp among with rfl | among
    · exact begun
    · exact ih (widen_le limit size) reached among

/-- As long as there is another round, doubling as many times is not enough. -/
theorem short_of_lt (widens : Widens limit needed size sizes) (index : limit ≤ Index.largest)
    (within : needed ≤ limit) {rounds : Nat} (more : rounds < sizes.length) :
    size * 2 ^ rounds < needed := by
  induction widens generalizing rounds with
  | enough _ => exact absurd more (Nat.not_lt_zero _)
  | @round size later short _ ih =>
    cases rounds with
    | zero => rwa [Nat.pow_zero, Nat.mul_one]
    | succ rounds =>
      have later_short := ih (Nat.lt_of_succ_lt_succ more)
      have kept := Nat.le_mul_of_pos_right (widen limit size) (Nat.two_pow_pos rounds)
      -- A size short of the need is below the limit, so it was not cut off there.
      have doubled : widen limit size = 2 * size := by
        have exact_double := widen_eq index size
        omega
      rw [doubled] at later_short
      rw [Nat.pow_succ, Nat.mul_comm (2 ^ rounds), ← Nat.mul_assoc, Nat.mul_comm size]
      exact later_short

/-- There are no more rounds than an index has bits. -/
theorem length_le (widens : Widens limit needed size sizes) (index : limit ≤ Index.largest)
    (within : needed ≤ limit) (positive : 0 < size) : sizes.length ≤ 64 := by
  refine Nat.le_of_not_lt fun more => ?_
  have short := widens.short_of_lt index within more
  have largest : Index.largest < 2 ^ 64 := by decide
  have least := Nat.le_mul_of_pos_left (2 ^ 64) positive
  omega

end Widens

/-- How a size grows until it is enough. -/
structure Growth (limit needed first : Nat) (sizes : List Nat) : Prop where
  /-- It is widened as long as it is short, and then no more. -/
  widens : Widens limit needed first sizes
  /-- Every round gains. -/
  gains : (first :: sizes).IsChain (Gains limit)
  /-- Every size keeps to the limit, the first one too. -/
  within : ∀ size ∈ first :: sizes, size ≤ limit
  /-- There are no more rounds than an index has bits. -/
  rounds : sizes.length ≤ 64
  /-- The last size is the one that growth comes to. -/
  last : sizes.getLastD first = fit limit needed first
  /-- The last size is enough. -/
  enough : needed ≤ fit limit needed first

/-- Growth from a size within the limit ends, where the need keeps to the limit. -/
theorem exists_growth (index : limit ≤ Index.largest) (within : needed ≤ limit)
    (positive : 0 < size) (begun : size ≤ limit) : ∃ sizes, Growth limit needed size sizes := by
  obtain ⟨sizes, widens, last⟩ := exists_widens index within positive
  exact ⟨sizes, widens, widens.isChain index within positive, widens.le_limit begun,
    widens.length_le index within positive, last, needed_le_fit index positive within⟩

/-! ## Cells -/

/-- A store as it lies in memory. -/
structure Cells where
  /-- All the bytes that there is room for. -/
  room : List UInt8
  /-- How many of them were written. -/
  written : Nat
deriving DecidableEq, Repr

namespace Cells

variable {cells : Cells} {data : List UInt8}

/-- The bytes that were written. -/
def bytes (cells : Cells) : List UInt8 := cells.room.take cells.written

/-- The cells with room for a number of bytes: what is above it is cut off, what is missing is
zero. -/
def resize (size : Nat) (cells : Cells) : Cells :=
  { cells with room := (cells.room.take size).rightpad size 0 }

/-- The cells with data put after what was written, none where that reaches past the room. -/
def put? (data : List UInt8) (cells : Cells) : Option Cells :=
  let needed := cells.written + data.length
  if needed ≤ cells.room.length then
    some ⟨cells.room.take cells.written ++ data ++ cells.room.drop needed, needed⟩
  else none

/-- A write as the cells see it, none if it is refused: the bytes must have indices, the room grows
if it is short and the limit allows, and the data is put into it. -/
def write? (limit : Nat) (data : List UInt8) (cells : Cells) : Option Cells :=
  (Index.checkedAdd cells.written data.length).bind fun needed =>
    if needed ≤ cells.room.length then cells.put? data
    else if limit < needed then none
    else (cells.resize (fit limit needed (max cells.room.length 1))).put? data

/-- The cells after data was put into them. -/
structure Takes (data : List UInt8) (cells after : Cells) : Prop where
  /-- There is as much room. -/
  room : after.room.length = cells.room.length
  /-- So much more was written. -/
  written : after.written = cells.written + data.length
  /-- It stands after what was written before. -/
  bytes : after.bytes = cells.bytes ++ data

/-- Resized cells have the room that was asked for. -/
theorem length_resize (size : Nat) (cells : Cells) : (cells.resize size).room.length = size := by
  rw [resize, List.length_rightpad, List.length_take]
  omega

/-- More room cuts off nothing that was written. -/
theorem bytes_resize (inside : cells.written ≤ cells.room.length)
    (grown : cells.room.length ≤ size) : (cells.resize size).bytes = cells.bytes := by
  rw [bytes, resize, List.rightpad, List.take_of_length_le grown]
  exact List.take_append_of_le_length inside

/-- Data is put where there is room for it. -/
theorem put?_of_room (room : cells.written + data.length ≤ cells.room.length) :
    ∃ after, cells.put? data = some after ∧ Takes data cells after := by
  refine ⟨_, if_pos room, ?_, rfl, ?_⟩
  · simp only [List.length_append, List.length_take, List.length_drop]
    omega
  · have front : (cells.room.take cells.written ++ data).length =
        cells.written + data.length := by
      rw [List.length_append, List.length_take]
      omega
    exact List.take_left' front

/-- Room that grew for the data takes it, and nothing that was written is lost by that. -/
theorem put?_of_grown (inside : cells.written ≤ cells.room.length)
    (grown : cells.room.length ≤ size) (enough : cells.written + data.length ≤ size) :
    (cells.resize size).bytes = cells.bytes ∧
      ∃ after, (cells.resize size).put? data = some after ∧ Takes data (cells.resize size) after :=
  ⟨bytes_resize inside grown, put?_of_room ((length_resize size cells).symm ▸ enough)⟩

/-! ## Writes -/

/-- Where there is room for the data it is put there. -/
theorem write?_of_room (index : limit ≤ Index.largest)
    (within : cells.written + data.length ≤ limit)
    (room : cells.written + data.length ≤ cells.room.length) :
    cells.write? limit data = cells.put? data := by
  have counted := Index.checkedAdd_eq_some_iff.mpr ⟨Nat.le_trans within index, rfl⟩
  rw [write?, counted, Option.bind_some, if_pos room]

/-- Where there is no room for the data but the limit allows it, the room grows first. -/
theorem write?_of_need (index : limit ≤ Index.largest)
    (within : cells.written + data.length ≤ limit)
    (lacking : cells.room.length < cells.written + data.length) :
    cells.write? limit data = (cells.resize
      (fit limit (cells.written + data.length) (max cells.room.length 1))).put? data := by
  have counted := Index.checkedAdd_eq_some_iff.mpr ⟨Nat.le_trans within index, rfl⟩
  rw [write?, counted, Option.bind_some, if_neg (Nat.not_le.mpr lacking),
    if_neg (Nat.not_lt.mpr within)]

/-- Data that passes the limit is refused, where there is no more room than that. -/
theorem write?_of_exceeds (most : cells.room.length ≤ limit)
    (exceeds : limit < cells.written + data.length) : cells.write? limit data = none := by
  unfold write?
  cases counted : Index.checkedAdd cells.written data.length with
  | none => rfl
  | some needed =>
    obtain ⟨-, rfl⟩ := Index.checkedAdd_eq_some_iff.mp counted
    have lacking := Nat.not_le.mpr (Nat.lt_of_le_of_lt most exceeds)
    rw [Option.bind_some, if_neg lacking, if_pos exceeds]

/-- Cells hold a growing buffer. What lies in them behind the written bytes does not matter. -/
structure Hold (buffer : Growing) (cells : Cells) : Prop where
  /-- There is as much room as the buffer has capacity. -/
  room : cells.room.length = buffer.capacity
  /-- As much was written. -/
  written : cells.written = buffer.size
  /-- The bytes that were written are those of the buffer. -/
  bytes : cells.bytes = buffer.tape.bytes.toList

namespace Hold

variable {buffer : Growing}

/-- Cells that took the data hold the buffer that stores it. -/
theorem takes (hold : cells.Hold buffer) {grown after : Cells} (kept : grown.bytes = cells.bytes)
    (same : grown.written = cells.written) (takes : Takes data grown after) :
    after.Hold { buffer with tape := buffer.tape.append data, capacity := grown.room.length } where
  room := takes.room
  written := by
    rw [takes.written, same, hold.written]
    exact (Tape.size_append data buffer.tape).symm
  bytes := by
    rw [takes.bytes, kept, hold.bytes]
    exact (Tape.toList_append data buffer.tape).symm

/-- A write that keeps to the limit is taken by the cells and by the buffer that they hold. -/
theorem write_of_fits (hold : cells.Hold buffer) (sound : buffer.Sound)
    (fits : buffer.size + data.length ≤ buffer.limit) :
    ∃ next after, buffer.write data = .ok next ∧ cells.write? buffer.limit data = some after ∧
      after.Hold next := by
  have index := sound.indexed
  have within : cells.written + data.length ≤ buffer.limit := hold.written ▸ fits
  unfold Growing.write admission
  dsimp only
  rw [← hold.room, ← hold.written]
  by_cases room : cells.written + data.length ≤ cells.room.length
  · obtain ⟨after, put, takes⟩ := put?_of_room room
    rw [if_pos room, write?_of_room index within room]
    exact ⟨_, after, rfl, put, hold.room ▸ hold.takes rfl rfl takes⟩
  · have lacking := Nat.lt_of_not_le room
    have inside : cells.written ≤ cells.room.length := by
      rw [hold.written, hold.room]
      exact sound.size_le
    have grown := le_fit buffer.limit (cells.written + data.length) (max cells.room.length 1)
    have enough := needed_le_fit index (Nat.le_max_right cells.room.length 1) within
    obtain ⟨kept, after, put, takes⟩ :=
      put?_of_grown inside (Nat.le_trans (Nat.le_max_left _ _) grown) enough
    have holds := hold.takes kept rfl takes
    rw [length_resize] at holds
    rw [if_neg room, if_neg (Nat.not_lt.mpr within), write?_of_need index within lacking]
    exact ⟨_, after, rfl, put, holds⟩

/-- A write that passes the limit is refused by the cells and by the buffer that they hold. -/
theorem write_of_exceeds (hold : cells.Hold buffer) (sound : buffer.Sound)
    (exceeds : buffer.limit < buffer.size + data.length) :
    buffer.write data = .error .noRoom ∧ cells.write? buffer.limit data = none :=
  ⟨sound.write_of_exceeds exceeds,
    write?_of_exceeds (hold.room ▸ sound.capacity_le) (hold.written ▸ exceeds)⟩

end Hold

end Cells

/-- **Growth ends within the limit, and has room for what it is needed for.** From every capacity
that is short of a need within the limit, up to the largest index, every round gains, the doubled
size is never cut off by the width of an index, and the rounds end with enough room within the
limit. Whatever lies in memory, the room that is then there has kept every byte that was written and
takes every byte that is pending. So what a sound buffer does is done to cells that hold it: a write
to them is refused exactly where the limit is passed. -/
theorem growth_ends {limit : Nat} (index : limit ≤ Index.largest) :
    (∀ capacity needed, capacity < needed → needed ≤ limit →
      (∃ sizes, Growth limit needed (max capacity 1) sizes) ∧
        ∀ (cells : Cells) (data : List UInt8), cells.room.length = capacity →
          cells.written ≤ capacity → cells.written + data.length = needed →
            let grown := cells.resize (fit limit needed (max capacity 1))
            grown.bytes = cells.bytes ∧
              ∃ after, grown.put? data = some after ∧ Cells.Takes data grown after) ∧
      ∀ (buffer : Growing) (cells : Cells) (data : List UInt8), buffer.Sound →
        buffer.limit = limit → cells.Hold buffer →
          (buffer.size + data.length ≤ limit →
            ∃ next after, buffer.write data = .ok next ∧ cells.write? limit data = some after ∧
              after.Hold next) ∧
            (limit < buffer.size + data.length →
              buffer.write data = .error .noRoom ∧ cells.write? limit data = none) := by
  refine ⟨fun capacity needed lacking within => ?_, fun buffer cells data sound same hold => ?_⟩
  · have positive : 0 < max capacity 1 := by omega
    have begun : max capacity 1 ≤ limit := by omega
    refine ⟨exists_growth index within positive begun, ?_⟩
    rintro cells data rfl inside rfl
    have grown := le_fit limit (cells.written + data.length) (max cells.room.length 1)
    exact Cells.put?_of_grown inside (Nat.le_trans (Nat.le_max_left _ _) grown)
      (needed_le_fit index positive within)
  · subst same
    exact ⟨hold.write_of_fits sound, hold.write_of_exceeds sound⟩

/-- A capacity of little more than half of all indices grows at once to the largest index, where
twice the capacity is no index any more. Three cells of which two were written become five where the
limit is five, and what lay in the third is written over. -/
theorem growth_ends_saturated :
    Growth Index.largest Index.largest (max 0x8000000000000001 1) [Index.largest] ∧
      ∃ next after, Growing.write [99, 100] ⟨⟨#[97, 98], ⟨0, 1, 2, 0⟩⟩, 3, 5⟩ = .ok next ∧
        Cells.write? 5 [99, 100] ⟨[97, 98, 255], 2⟩ = some after ∧ after.Hold next := by
  constructor
  · have short : (0x8000000000000001 : Nat) < Index.largest := by decide
    obtain ⟨sizes, growth⟩ :=
      ((growth_ends (Nat.le_refl Index.largest)).1 _ _ short (Nat.le_refl _)).1
    have once : Widens Index.largest Index.largest (max 0x8000000000000001 1) [Index.largest] :=
      .round (by decide) (.enough (by decide))
    rwa [growth.widens.unique once] at growth
  · have sound : Growing.Sound ⟨⟨#[97, 98], ⟨0, 1, 2, 0⟩⟩, 3, 5⟩ :=
      ⟨⟨by decide, by decide, by decide⟩, by decide, by decide, by decide⟩
    have hold : Cells.Hold ⟨⟨#[97, 98], ⟨0, 1, 2, 0⟩⟩, 3, 5⟩ ⟨[97, 98, 255], 2⟩ := ⟨rfl, rfl, rfl⟩
    exact ((growth_ends (by decide)).2 _ _ _ sound rfl hold).1 (by decide)

end WireScan.Growing
