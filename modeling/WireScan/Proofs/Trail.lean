import Mathlib.Data.List.Forall2
import WireScan.Proofs.Timeline

/-!
# What was read of a window

A guard saves the window it finds, and with it whatever is kept about that window. `Stacked` keeps a
value for the window that is being read and one for each saved window, and changes with them
(`Session.Change.windows`), so what a value says about its window it goes on to say
(`Stacked.Related.change`). A trail keeps the bytes that were read, each noted when it was read: at
every moment they are the bytes of the window up to where reading stands, whatever has happened to
the buffer since (`Trail.Fits.after`).
-/
namespace WireScan

/-- A value for the window that is being read, and for each window that a guard saved. -/
structure Stacked (α : Type) where
  /-- The value for the window that is being read. -/
  now : α
  /-- The values for the saved windows, the innermost first. -/
  saved : List α
deriving DecidableEq, Repr

namespace Stacked

variable {α β : Type}

/-- The values after a turn. A window that goes on or begins has a new one. -/
def turned (stacked : Stacked α) (turn : Turn) (fresh : α) : Stacked α :=
  match turn with
  | .goesOn | .renews | .places => { stacked with now := fresh }
  | .returns => { stacked with now := stacked.saved.headD stacked.now }
  | .opens => { stacked with saved := stacked.now :: stacked.saved }
  | .closes false => { stacked with saved := stacked.saved.tail }
  | .closes true => ⟨stacked.saved.headD stacked.now, stacked.saved.tail⟩

/-- As many values on either side, each related to the one in its place. -/
structure Related (relation : α → β → Prop) (left : Stacked α) (right : Stacked β) : Prop where
  /-- The values for the window that is being read are related. -/
  now : relation left.now right.now
  /-- The values for the saved windows are related. -/
  saved : List.Forall₂ relation left.saved right.saved

variable {relation : α → β → Prop} {left : Stacked α} {right : Stacked β}

/-- Values stay related when the relation says more than another. -/
theorem Related.imp {weaker : α → β → Prop} (related : left.Related relation right)
    (implies : ∀ a b, relation a b → weaker a b) : left.Related weaker right :=
  ⟨implies _ _ related.now, related.saved.imp implies⟩

/-- The values for the window that would come back are related. -/
theorem Related.headD (related : left.Related relation right) :
    relation (left.saved.headD left.now) (right.saved.headD right.now) := by
  obtain ⟨_, _⟩ := left
  obtain ⟨_, _⟩ := right
  obtain ⟨now, saved⟩ := related
  cases saved with
  | nil => exact now
  | cons innermost _ => exact innermost

/-- The values for the outer windows are related. -/
theorem Related.tail (related : left.Related relation right) :
    List.Forall₂ relation left.saved.tail right.saved.tail := by
  obtain ⟨_, _⟩ := left
  obtain ⟨_, _⟩ := right
  obtain ⟨_, saved⟩ := related
  cases saved with
  | nil => exact .nil
  | cons _ outer => exact outer

/-- Values stay related after a turn that gives related new ones. -/
theorem Related.turned (related : left.Related relation right) {turn : Turn} {fresh : α} {next : β}
    (unplaced : turn ≠ .places)
    (renewed : turn = .goesOn ∨ turn = .renews → relation fresh next) :
    (left.turned turn fresh).Related relation (right.turned turn next) := by
  cases turn with
  | goesOn => exact ⟨renewed (.inl rfl), related.saved⟩
  | renews => exact ⟨renewed (.inr rfl), related.saved⟩
  | places => exact absurd rfl unplaced
  | returns => exact ⟨related.headD, related.saved⟩
  | opens => exact ⟨related.now, .cons related.now related.saved⟩
  | closes returning =>
    cases returning with
    | false => exact ⟨related.now, related.tail⟩
    | true => exact ⟨related.headD, related.tail⟩

end Stacked

/-! ## The windows of a session -/

namespace Session

variable {session next : Session} {turn : Turn}

/-- The window that is being read and those that the open guards saved. -/
def windows (session : Session) : Stacked Window :=
  ⟨session.window, session.guards.map Guard.saved⟩

/-- A window that a guard saved is the window when it is put back. -/
theorem Sound.window_rolledBack (sound : session.Sound) {guard : Guard}
    (among : guard ∈ session.guards) (guards : List Guard) :
    (({ session with guards } : Session).rolledBack guard.saved).window = guard.saved := by
  rw [rolledBack, Session.window, tape, withTape, Buffer.tape_withTape]
  exact congrArg Tape.window (Tape.restore_eq (sound.saved guard among))

/-- A change of a sound session changes its windows as its turn says. -/
theorem Change.windows (changed : session.Change turn next) (sound : session.Sound) :
    next.windows = session.windows.turned turn next.window := by
  cases changed with
  | adds | clears | places => rfl
  | moves moved =>
    cases moved with
    | looks | marks | reads | resets | opens => rfl
    | disarms found => simp only [Session.windows, Stacked.turned, found, List.map_cons]
    | leaves found => simp only [Session.windows, Stacked.turned, found, List.map_cons]; rfl
    | unguarded none | unopened none =>
      simp only [Session.windows, Stacked.turned, none]
      rfl
    | @returns guard outer found =>
      have back := sound.window_rolledBack (found ▸ List.mem_cons_self) session.guards
      simp only [Session.windows, Stacked.turned, found, List.map_cons, List.headD_cons]
      exact congrArg₂ Stacked.mk back (congrArg (List.map Guard.saved) found)
    | @restores guard outer found =>
      have back := sound.window_rolledBack (found ▸ List.mem_cons_self) outer
      simp only [Session.windows, Stacked.turned, found, List.map_cons, List.headD_cons]
      exact congrArg₂ Stacked.mk back rfl

/-- A window goes on when some of the bytes ahead were read, or bytes were added after them. -/
theorem Change.goes_on (changed : session.Change .goesOn next) (sound : session.Sound) :
    (∃ count ≤ session.tape.available, next.tape =
        { session.tape with
          window := { session.window with pos := session.window.pos + count } }) ∨
      session.guards = [] ∧ ∃ data, next.tape = session.tape.append data := by
  have still : session.tape =
      { session.tape with window := { session.window with pos := session.window.pos + 0 } } := rfl
  cases changed with
  | adds data unguarded stored _ => exact .inr ⟨unguarded, data, stored⟩
  | moves moved =>
    refine .inl ?_
    cases moved with
    | reads count inside =>
      refine ⟨count, inside, ?_⟩
      rw [tape, withTape, Buffer.tape_withTape]
      exact sound.buffer.tape.skip_eq inside
    | _ => exact ⟨0, Nat.zero_le _, still⟩

/-- A reader renews the window where the one before it stops. -/
theorem Move.renews (moved : session.Move .renews next) (sound : session.Sound) :
    next.tape = { session.tape with window := session.window.renewed } := by
  cases moved with
  | resets =>
    rw [tape, withTape, Buffer.tape_withTape]
    exact Tape.restore_eq (Window.renewed_within sound.buffer.tape.valid)

/-- A window is renewed where the one before it stops, or in a store that was cleared. -/
theorem Change.renews (changed : session.Change .renews next) (sound : session.Sound) :
    next.tape = { session.tape with window := session.window.renewed } ∨
      session.guards = [] ∧ next.tape = session.tape.clear := by
  cases changed with
  | clears unguarded cleared _ => exact .inr ⟨unguarded, cleared⟩
  | moves moved => exact .inl (moved.renews sound)

/-- The bytes stay unless the owner goes on or renews the window with no guard open. -/
theorem Change.bytes_eq (changed : session.Change turn next) :
    next.tape.bytes = session.tape.bytes ∨
      session.guards = [] ∧ (turn = .goesOn ∨ turn = .renews) := by
  cases changed with
  | moves moved => exact .inl moved.keepsStore.bytes_eq
  | adds _ unguarded => exact .inr ⟨unguarded, .inl rfl⟩
  | clears unguarded => exact .inr ⟨unguarded, .inr rfl⟩
  | places window =>
    refine .inl ?_
    rw [tape, withTape, Buffer.tape_withTape]
    rfl

end Session

/-- What values say about their windows over the stored bytes they say after a change too, if the
new value of a window that goes on or begins says it. -/
theorem Stacked.Related.change {α : Type} {fits : Array UInt8 → α → Window → Prop}
    {session next : Session} {stacked : Stacked α}
    (related : stacked.Related (fits session.tape.bytes) session.windows) (sound : session.Sound)
    {turn : Turn} (changed : session.Change turn next) (unplaced : turn ≠ .places) {fresh : α}
    (renewed : turn = .goesOn ∨ turn = .renews → fits next.tape.bytes fresh next.window) :
    (stacked.turned turn fresh).Related (fits next.tape.bytes) next.windows := by
  rw [changed.windows sound]
  rcases changed.bytes_eq with same | ⟨unguarded, going⟩
  · rw [same] at renewed ⊢
    exact related.turned unplaced renewed
  · -- Nothing is saved, so it does not matter what was said over the bytes before.
    have saved := related.saved
    have none : session.windows.saved = [] := congrArg (List.map Guard.saved) unguarded
    rw [none, List.forall₂_nil_right_iff] at saved
    have nothing : List.Forall₂ (fits next.tape.bytes) stacked.saved session.windows.saved := by
      rw [saved, none]
      exact .nil
    rcases going with rfl | rfl
    · exact ⟨renewed (.inl rfl), nothing⟩
    · exact ⟨renewed (.inr rfl), nothing⟩

/-! ## Records -/

namespace Session

variable {σ : Type} {enter : Session → Event → σ → σ}

/-- What is kept of events in order, each entered in the session that it happens to. -/
def record (enter : Session → Event → σ → σ) : List Event → Session → σ → σ
  | [], _, kept => kept
  | event :: later, session, kept =>
    record enter later (event.apply session) (enter session event kept)

/-- What every entry keeps true of a record is true of it at the end of every allowed timeline that
places no window. -/
theorem record_fits {fits : σ → Session → Prop}
    (enters : ∀ session event kept, fits kept session → session.Sound → event.Allowed session →
      event.turn session ≠ .places → fits (enter session event kept) (event.apply session))
    {events : List Event} {session : Session} {kept : σ} (holds : fits kept session)
    (sound : session.Sound) (allowed : session.Admits events)
    (unplaced : ∀ window, .owner (.place window) ∉ events) :
    fits (record enter events session kept) (session.after events) := by
  induction events generalizing kept session with
  | nil => exact holds
  | cons event later ih =>
    have ⟨turn, others⟩ := session.unplaced_cons unplaced
    have entered := enters session event kept holds sound allowed.1 turn
    have next := sound.change (Event.apply_change allowed.1)
    exact ih entered next allowed.2 others

end Session

/-! ## Trails -/

/-- The bytes that an event reads. -/
def Event.passed (session : Session) (event : Event) : List UInt8 :=
  session.tape.ahead.take ((event.apply session).window.pos - session.window.pos)

/-- The bytes that were read of each window, each noted when it was read. -/
abbrev Trail : Type := Stacked (List UInt8)

namespace Trail

/-- Nothing was read yet. -/
def start : Trail := ⟨[], []⟩

/-- The trail after an event: the bytes it read are noted, and none are for a window that begins. -/
def enter (session : Session) (event : Event) (trail : Trail) : Trail :=
  trail.turned (event.turn session) <|
    match event.turn session with
    | .renews => []
    | _ => trail.now ++ event.passed session

/-- The trail after events in order. -/
def after (events : List Event) (session : Session) (trail : Trail) : Trail :=
  session.record enter events trail

/-- The bytes noted for a window are those stored in it up to where reading stands. -/
def Passed (bytes : Array UInt8) (passed : List UInt8) (window : Window) : Prop :=
  passed = (bytes.toList.take window.pos).drop window.start

/-- A trail holds what was read of the window and of those that guards saved. -/
abbrev Fits (trail : Trail) (session : Session) : Prop :=
  trail.Related (Passed session.tape.bytes) session.windows

/-- Nothing is noted for a window that nothing was read of. -/
theorem passed_nil {bytes : Array UInt8} {window : Window} (unread : window.pos = window.start) :
    Passed bytes [] window := by
  rw [Passed, unread, List.drop_eq_nil_of_le]
  rw [List.length_take]
  exact Nat.min_le_left _ _

/-- At first nothing was read. -/
theorem start_fits {buffer : Buffer} (new : buffer.New) : start.Fits (Session.ofBuffer buffer) := by
  refine ⟨passed_nil ?_, .nil⟩
  cases new with
  | range indexed ranged =>
    obtain ⟨_, rfl⟩ := Tape.ofRange_eq_ok_iff.mp ranged
    rfl
  | fixedOf indexed fits =>
    obtain ⟨_, rfl⟩ := Fixed.ofBytes_eq_ok_iff.mp fits
    rfl
  | _ => rfl

/-- Bytes that were read next are noted after those that were read before. -/
theorem Passed.read {tape : Tape} (valid : tape.Valid) {passed : List UInt8}
    (noted : Passed tape.bytes passed tape.window) {count : Nat} (inside : count ≤ tape.available) :
    Passed tape.bytes (passed ++ tape.ahead.take count)
      { tape.window with pos := tape.window.pos + count } := by
  obtain ⟨ordered, reached, bounded⟩ := valid
  unfold Tape.available Window.available at inside
  have begun : tape.window.start ≤ (tape.bytes.toList.take tape.window.pos).length := by
    rw [List.length_take, Array.length_toList]
    omega
  have next : tape.ahead.take count = (tape.bytes.toList.drop tape.window.pos).take count := by
    rw [Tape.ahead_eq ⟨ordered, reached, bounded⟩, List.drop_take, List.take_take,
      Nat.min_eq_left inside]
  rw [Passed, noted, next]
  dsimp only
  rw [List.take_add, List.drop_append_of_le_length begun]

/-- What was noted stays so when bytes are stored after all others. -/
theorem Passed.append {tape : Tape} (valid : tape.Valid) {passed : List UInt8}
    (noted : Passed tape.bytes passed tape.window) (data : List UInt8) :
    Passed (tape.append data).bytes passed (tape.append data).window := by
  have inside : tape.window.pos ≤ tape.bytes.toList.length :=
    Nat.le_trans valid.pos_le_stop valid.stop_le_length
  rw [Passed, Tape.toList_append]
  dsimp only [Tape.append]
  rw [List.take_append_of_le_length inside]
  exact noted

variable {trail : Trail} {session : Session}

/-- An event keeps what a trail says, unless it places the window. -/
theorem Fits.enter {event : Event} (fits : trail.Fits session) (sound : session.Sound)
    (allowed : event.Allowed session) (unplaced : event.turn session ≠ .places) :
    (trail.enter session event).Fits (event.apply session) := by
  have changed := Event.apply_change allowed
  have valid : session.tape.Valid := sound.buffer.tape.valid
  refine Stacked.Related.change fits sound changed unplaced ?_
  have read : ∀ count, (event.apply session).tape.window.pos = session.tape.window.pos + count →
      event.passed session = session.tape.ahead.take count := by
    intro count further
    have moved : (event.apply session).window.pos - session.window.pos = count := by
      rw [Session.window, Session.window, further]
      exact Nat.add_sub_cancel_left _ _
    rw [Event.passed, moved]
  rintro (turn | turn) <;> rw [turn] at changed ⊢ <;> dsimp only
  · rcases changed.goes_on sound with ⟨count, inside, same⟩ | ⟨_, data, same⟩
    · rw [read count (by rw [same]; rfl), Session.window, same]
      exact fits.now.read valid inside
    · rw [read 0 (by rw [same]; rfl), List.take_zero, List.append_nil, Session.window, same]
      exact fits.now.append valid data
  · rcases changed.renews sound with same | ⟨_, same⟩
    · rw [Session.window, same]
      exact passed_nil rfl
    · rw [Session.window, same]
      exact passed_nil rfl

/-- **The bytes noted are those that stand in the window.** On every allowed timeline that places no
window, a trail that fits at first fits at its end. -/
theorem Fits.after {events : List Event} (fits : trail.Fits session) (sound : session.Sound)
    (allowed : session.Admits events) (unplaced : ∀ window, .owner (.place window) ∉ events) :
    (trail.after events session).Fits (session.after events) :=
  Session.record_fits (fun _ _ _ => Fits.enter) fits sound allowed unplaced

end Trail

end WireScan
