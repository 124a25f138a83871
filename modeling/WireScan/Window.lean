import WireScan.Index

/-!
# Windows

A window is described by three indices into a byte store (where it starts, where reading
stands, where it stops) and by an epoch, a 32-bit count of the times it was emptied, so
that a mark taken before can be told from a mark taken after. The indices of an arbitrary
window need not be in order; `confine` puts them in order and inside a store of a given length
(`confine_within`), and leaves a window alone that is already so (`confine_eq_self`).
-/
namespace WireScan

/-- Three indices into a byte store, and how often the window was emptied. -/
structure Window where
  /-- The first byte of the window. -/
  start : Nat
  /-- The next byte to read. -/
  pos : Nat
  /-- The first byte after the window. -/
  stop : Nat
  /-- Counts the times the window was emptied, modulo 2 ^ 32. -/
  epoch : UInt32
deriving DecidableEq, Repr, Inhabited

namespace Window

/-- The window of a store that holds nothing. -/
def empty : Window := ⟨0, 0, 0, 0⟩

/-- A window that nothing was read from yet. -/
def spanning (start stop : Nat) : Window := ⟨start, start, stop, 0⟩

/-- The empty window that begins where a window stops, in the next epoch. -/
def renewed (window : Window) : Window :=
  ⟨window.stop, window.stop, window.stop, window.epoch + 1⟩

/-- The empty window of a store that was cleared, in the next epoch. -/
def cleared (window : Window) : Window := { empty with epoch := window.epoch + 1 }

/-- The window confined to a store of the given length, with its indices in order. -/
def confine (length : Nat) (window : Window) : Window :=
  let stop := min window.stop length
  let start := min window.start stop
  { window with start, pos := max start (min window.pos stop), stop }

/-- How far reading has come from the start of the window. -/
def position (window : Window) : Nat := window.pos - window.start

/-- How many bytes lie ahead of the read position. -/
def available (window : Window) : Nat := window.stop - window.pos

/-- The indices are in order and lie inside a store of the given length. -/
structure Within (length : Nat) (window : Window) : Prop where
  /-- Reading stands at or after the start. -/
  start_le_pos : window.start ≤ window.pos
  /-- Reading stands at or before the stop. -/
  pos_le_stop : window.pos ≤ window.stop
  /-- The window ends inside the store. -/
  stop_le_length : window.stop ≤ length

instance (length : Nat) (window : Window) : Decidable (window.Within length) :=
  decidable_of_iff
    (window.start ≤ window.pos ∧ window.pos ≤ window.stop ∧ window.stop ≤ length)
    ⟨fun ⟨first, second, third⟩ => ⟨first, second, third⟩,
      fun ⟨first, second, third⟩ => ⟨first, second, third⟩⟩

/-- The window of a store that holds nothing lies in every store. -/
theorem empty_within (length : Nat) : empty.Within length :=
  ⟨Nat.le_refl _, Nat.le_refl _, Nat.zero_le _⟩

/-- A confined window is in order and inside the store. -/
theorem confine_within (length : Nat) (window : Window) :
    (window.confine length).Within length := by
  constructor <;> simp only [confine] <;> omega

/-- A window that is in order and inside the store is left alone. -/
theorem confine_eq_self {length : Nat} {window : Window} (within : window.Within length) :
    window.confine length = window := by
  obtain ⟨ordered, reached, inside⟩ := within
  cases window
  simp only [confine, mk.injEq, and_true] at *
  omega

/-- The window after a renewal lies inside the store too. -/
theorem renewed_within {length : Nat} {window : Window} (within : window.Within length) :
    window.renewed.Within length := ⟨Nat.le_refl _, Nat.le_refl _, within.stop_le_length⟩

end Window

end WireScan
