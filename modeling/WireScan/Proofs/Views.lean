import WireScan.Proofs.Timeline

/-!
# What is seen of a tape

On a sound tape every look finds what it looks for inside the store, so all that can be seen of the
tape are parts of one list, the bytes of its window (`Tape.Agrees`, `Tape.Sound.agrees`): those
ahead are the window without what was read of it, the next byte is the first of those ahead, and so
on. A sound tape is all there ever is: at every moment of every run the window lies inside the
store, what is stored keeps to the most that the buffer was made for (`Buffer.ceiling`), and the
views agree (`Session.after_orderly`).
-/
namespace WireScan

/-- All that can be seen of a tape are parts of its window. -/
structure Tape.Agrees (tape : Tape) : Prop where
  /-- The window is found in the store. -/
  contents_found : tape.slice? tape.window.start tape.window.stop = some tape.contents
  /-- The bytes ahead are found in the store. -/
  ahead_found : tape.slice? tape.window.pos tape.window.stop = some tape.ahead
  /-- The window has the bytes from its start to its stop. -/
  length_contents : tape.contents.length = tape.window.stop - tape.window.start
  /-- As many bytes lie ahead as are available. -/
  length_ahead : tape.ahead.length = tape.available
  /-- The bytes ahead are the window without what was read of it. -/
  ahead : tape.ahead = tape.contents.drop tape.position
  /-- The next byte is the first of them. -/
  peek : tape.peek? = tape.ahead[0]?
  /-- The byte after the next is the second of them. -/
  peekSecond : tape.peekSecond? = tape.ahead[1]?
  /-- The next byte is taken by reading one byte further, and where there is none nothing is. -/
  take : tape.take? = tape.peek?.map fun byte =>
    (byte, { tape with window := { tape.window with pos := tape.window.pos + 1 } })
  /-- The window from an offset on is the window without as many bytes. -/
  contentsFrom : ∀ offset, tape.contentsFrom offset = tape.contents.drop offset
  /-- A line ends here exactly when its two bytes lie ahead. -/
  atLineEnd : tape.atLineEnd = true ↔ Byte.lineEnd <+: tape.ahead

namespace Tape

variable {tape : Tape}

/-- A byte ahead is the stored byte as far behind the read position. -/
theorem getElem?_ahead (valid : tape.Valid) (index : Nat) :
    tape.ahead[index]? =
      if tape.window.pos + index < tape.window.stop then tape.bytes[tape.window.pos + index]?
      else none := by
  rw [ahead_eq valid, List.getElem?_drop, List.getElem?_take, Array.getElem?_toList]

/-- The next byte is the first of those ahead. -/
theorem peek?_eq (valid : tape.Valid) : tape.peek? = tape.ahead[0]? := by
  rw [getElem?_ahead valid, peek?, Nat.add_zero]
  by_cases ended : tape.window.stop ≤ tape.window.pos
  · rw [if_pos ended, if_neg (Nat.not_lt.mpr ended)]
  · rw [if_neg ended, if_pos (Nat.lt_of_not_le ended)]

/-- The byte after the next is the second of those ahead. -/
theorem peekSecond?_eq (valid : tape.Valid) : tape.peekSecond? = tape.ahead[1]? := by
  have short : tape.available < 2 ↔ ¬tape.window.pos + 1 < tape.window.stop := by
    unfold available Window.available
    omega
  rw [getElem?_ahead valid, peekSecond?]
  by_cases few : tape.available < 2
  · rw [if_pos few, if_neg (short.mp few)]
  · rw [if_neg few, if_pos (Classical.not_not.mp fun beyond => few (short.mpr beyond))]

/-- A line ends here exactly when its two bytes lie ahead. -/
theorem atLineEnd_iff (valid : tape.Valid) :
    tape.atLineEnd = true ↔ Byte.lineEnd <+: tape.ahead := by
  rw [atLineEnd, peek?_eq valid, peekSecond?_eq valid, Byte.lineEnd]
  match tape.ahead with
  | [] => simp
  | [first] => simp
  | first :: second :: rest => simp [@eq_comm _ Byte.cr, @eq_comm _ Byte.lf]

/-- The bytes ahead are the window without what was read of it. -/
theorem ahead_eq_drop (valid : tape.Valid) : tape.ahead = tape.contents.drop tape.position := by
  rw [ahead_eq valid, contents_eq valid, List.drop_drop, position, Window.position,
    Nat.add_sub_cancel' valid.start_le_pos]

/-- The window has the bytes from its start to its stop. -/
theorem length_contents (valid : tape.Valid) :
    tape.contents.length = tape.window.stop - tape.window.start := by
  have inside := valid.stop_le_length
  rw [contents_eq valid, List.length_drop, List.length_take, Array.length_toList,
    Nat.min_eq_left inside]

namespace Sound

/-- The window from an offset on is the window without as many bytes, also where the offset lies
outside the window or leads past the largest index. -/
theorem contentsFrom_eq (sound : tape.Sound) (offset : Nat) :
    tape.contentsFrom offset = tape.contents.drop offset := by
  have inside := sound.valid.stop_le_length
  have nothing : tape.window.stop < tape.window.start + offset →
      tape.contents.drop offset = [] := by
    intro beyond
    apply List.drop_eq_nil_of_le
    rw [length_contents sound.valid]
    omega
  unfold contentsFrom
  cases reached : Index.checkedAdd tape.window.start offset with
  | none =>
    have indexed := sound.indexed
    have beyond := Index.checkedAdd_eq_none_iff.mp reached
    exact (nothing (by omega)).symm
  | some start =>
    obtain ⟨-, rfl⟩ := Index.checkedAdd_eq_some_iff.mp reached
    dsimp only
    by_cases ordered : tape.window.start + offset ≤ tape.window.stop
    · rw [slice?_eq ordered inside, contents_eq sound.valid, List.drop_drop]
      rfl
    · rw [slice?, if_neg fun found => ordered found.1]
      exact (nothing (Nat.lt_of_not_le ordered)).symm

/-- The next byte is taken by reading one byte further. -/
theorem take?_eq (sound : tape.Sound) :
    tape.take? = tape.peek?.map fun byte =>
      (byte, { tape with window := { tape.window with pos := tape.window.pos + 1 } }) := by
  unfold take?
  cases next : tape.peek? with
  | none => rfl
  | some byte =>
    have inside : 1 ≤ tape.available := by
      rw [← length_ahead sound.valid]
      apply Nat.pos_of_ne_zero
      intro none
      rw [peek?_eq sound.valid, List.eq_nil_of_length_eq_zero none] at next
      cases next
    rw [Option.map_some, Option.map_some, sound.skip_eq inside]

/-- On a sound tape all views agree. -/
theorem agrees (sound : tape.Sound) : tape.Agrees where
  contents_found := by
    have ⟨ordered, reached, inside⟩ := sound.valid
    rw [contents_eq sound.valid, slice?_eq (Nat.le_trans ordered reached) inside]
  ahead_found := by
    rw [ahead_eq sound.valid, slice?_eq sound.valid.pos_le_stop sound.valid.stop_le_length]
  length_contents := length_contents sound.valid
  length_ahead := length_ahead sound.valid
  ahead := ahead_eq_drop sound.valid
  peek := peek?_eq sound.valid
  peekSecond := peekSecond?_eq sound.valid
  take := sound.take?_eq
  contentsFrom := sound.contentsFrom_eq
  atLineEnd := atLineEnd_iff sound.valid

end Sound

end Tape

/-! ## The most that a buffer holds -/

/-- The most bytes that a buffer may ever hold, if it takes any. -/
def Buffer.ceiling : Buffer → Option Nat
  | .lent _ => none
  | .fixed buffer => some buffer.capacity
  | .growing buffer => some buffer.limit

/-- Another tape leaves the ceiling. -/
@[simp] theorem Buffer.ceiling_withTape (tape : Tape) (buffer : Buffer) :
    (buffer.withTape tape).ceiling = buffer.ceiling := by
  cases buffer <;> rfl

namespace Growing

/-- A write leaves the limit. -/
theorem write_limit {data : List UInt8} {buffer written : Growing}
    (accepted : buffer.write data = .ok written) : written.limit = buffer.limit := by
  unfold write at accepted
  split at accepted <;> cases accepted <;> rfl

/-- The parts of a text leave the limit. -/
theorem writeParts_limit (parts : List String) (buffer : Growing) :
    (buffer.writeParts parts).buffer.limit = buffer.limit := by
  induction parts generalizing buffer with
  | nil => rfl
  | cons part rest ih =>
    rw [writeParts]
    cases written : buffer.write (Utf8.encode part) with
    | error fault => rfl
    | ok next => exact (ih next).trans (write_limit written)

end Growing

namespace Session

/-- What keeps the store leaves the ceiling. -/
theorem KeepsStore.ceiling_eq {before after : Session} (kept : before.KeepsStore after) :
    after.buffer.ceiling = before.buffer.ceiling := by
  obtain ⟨window, moved⟩ := kept
  rw [moved, Buffer.ceiling_withTape]

/-- A write leaves the ceiling, whether it was accepted or not. -/
theorem writing_ceiling {session : Session} {buffer : Growing}
    (held : session.buffer = .growing buffer) (data : List UInt8) (reply : Reply)
    (refusal : Fault → Reply) :
    (session.writing buffer data reply refusal).session.buffer.ceiling =
      session.buffer.ceiling := by
  unfold writing
  dsimp only
  split <;> rename_i written
  · rw [held]
    exact congrArg some (Growing.write_limit written)
  · rfl

end Session

namespace Command

/-- A reader's script keeps the store, also after a number of bytes. -/
theorem read_keepsStore (skipped : Option Nat) (script : Script) (session : Session) :
    session.KeepsStore ((read skipped script).perform session).session := by
  cases skipped with
  | none => exact script.run_keepsStore false session
  | some count =>
    simp only [perform]
    cases moved : session.tape.advance count with
    | error fault => exact .of_buffer_eq rfl
    | ok tape =>
      have skipped : session.KeepsStore (session.withTape tape) := by
        unfold Tape.advance at moved
        split at moved <;> cases moved
        exact .of_window session _
      exact skipped.trans (script.run_keepsStore false _)

/-- No command changes the ceiling of a buffer. -/
theorem perform_ceiling (command : Command) (session : Session) :
    (command.perform session).session.buffer.ceiling = session.buffer.ceiling := by
  cases command with
  | act action => exact (action.perform_move session).keepsStore.ceiling_eq
  | read skipped script => exact (read_keepsStore skipped script session).ceiling_eq
  | take =>
    simp only [perform]
    split <;> simp [Session.withTape, Session.replying]
  | place window => exact Buffer.ceiling_withTape _ _
  | inspect => rfl
  | feed data =>
    cases held : session.buffer with
    | fixed buffer =>
      simp only [perform, held]
      cases fed : buffer.feed data with
      | error fault => simp only [held]
      | ok next => rw [(Fixed.feed_eq_ok_iff.mp fed).2]; rfl
    | _ => simp only [perform, held, Session.replying]
  | format parts =>
    cases held : session.buffer with
    | growing buffer =>
      simp only [perform, held]
      exact congrArg some (Growing.writeParts_limit parts buffer)
    | _ => simp only [perform, held, Session.replying]
  | clear | flush =>
    cases held : session.buffer <;> simp only [perform, held, Session.replying] <;> rfl
  | sendAll data =>
    cases held : session.buffer with
    | growing buffer =>
      simp only [perform, held]
      split
      · simp only [Session.replying, held]
      · rw [Session.writing_ceiling held, held]
    | _ => simp only [perform, held, Session.replying]
  | write | writeOne | send =>
    cases held : session.buffer with
    | growing buffer =>
      simp only [perform, held]
      rw [Session.writing_ceiling held, held]
    | _ => simp only [perform, held, Session.replying]

end Command

/-- No event changes the ceiling of a buffer. -/
theorem Event.apply_ceiling (event : Event) (session : Session) :
    (event.apply session).buffer.ceiling = session.buffer.ceiling := by
  cases event with
  | owner command => exact command.perform_ceiling session
  | reader action => exact (action.perform_move session).keepsStore.ceiling_eq
  | opened => rfl
  | closed ending => exact (session.closeGuard_move ending).keepsStore.ceiling_eq

namespace Session

/-- No timeline changes the ceiling of a buffer. -/
theorem after_ceiling (events : List Event) (session : Session) :
    (session.after events).buffer.ceiling = session.buffer.ceiling := by
  induction events generalizing session with
  | nil => rfl
  | cons event later ih => exact (ih _).trans (event.apply_ceiling session)

/-- A session as it is at every moment, of a buffer that was made as it says. -/
structure Orderly (made : Buffer) (session : Session) : Prop where
  /-- The window starts no later than reading stands, and stops no earlier and inside the store. -/
  window : session.window.Within session.tape.bytes.size
  /-- What is stored keeps to the room there is, and that to its limit. -/
  sound : session.buffer.Sound
  /-- The buffer may hold as much as when it was made. -/
  ceiling : session.buffer.ceiling = made.ceiling
  /-- All views of the window agree. -/
  views : session.tape.Agrees

/-- Every allowed timeline keeps a session as it is at every moment. -/
theorem orderly_of_admits {buffer : Buffer} (new : buffer.New) {events : List Event}
    (allowed : (ofBuffer buffer).Admits events) :
    ((ofBuffer buffer).after events).Orderly buffer := by
  have sound := ((sound_ofBuffer new).after allowed).buffer
  exact ⟨sound.tape.valid, sound, after_ceiling events _, sound.tape.agrees⟩

/-- Every entry of a list of commands is where some allowed timeline leads. -/
theorem exists_events_of_mem {commands : List Command} {session : Session}
    (unguarded : session.guards = []) {entry : Entry}
    (among : entry ∈ Command.performAll commands session) :
    ∃ events, session.Admits events ∧ session.after events = entry.session := by
  induction commands generalizing session with
  | nil => nomatch among
  | cons command later ih =>
    have led := command.after_events session
    have allowed := Command.admits_events unguarded command
    rcases List.mem_cons.mp among with rfl | among
    · exact ⟨_, allowed, led⟩
    · obtain ⟨events, allowed_later, same⟩ := ih (command.perform_guards unguarded) among
      refine ⟨command.events session ++ events, (admits_append _ _ _).mpr ⟨allowed, ?_⟩, ?_⟩
      · rw [led]
        exact allowed_later
      · rw [after_append, led]
        exact same

/-- **The window lies inside the store at every moment, and all views of it agree.** On every
allowed timeline from a new buffer, whatever windows are placed on the way, and after every command
of every list of commands, whatever scripts readers run in them, the indices of the window are in
order and inside the store, what is stored keeps to the most that the buffer was made for, and every
look at the tape is answered from the bytes of the window. -/
theorem after_orderly {buffer : Buffer} (new : buffer.New) :
    (∀ events, (ofBuffer buffer).Admits events →
        ((ofBuffer buffer).after events).Orderly buffer) ∧
      ∀ commands, ∀ entry ∈ Command.performAll commands (ofBuffer buffer),
        entry.session.Orderly buffer := by
  refine ⟨fun events allowed => orderly_of_admits new allowed, fun commands entry among => ?_⟩
  obtain ⟨events, allowed, same⟩ := exists_events_of_mem rfl among
  rw [← same]
  exact orderly_of_admits new allowed

/-- A window that reaches past the store is placed, a reset of it is undone, a window that ends
before the store does is placed, and a write makes the store grow and the window end where it ends.
-/
theorem after_orderly_placed_windows :
    let buffer : Buffer := .growing (.empty 2 8)
    let events : List Event :=
      [.owner (.write [97, 13, 10, 98]), .owner (.place ⟨1, 2, 9, 5⟩), .opened, .reader .reset,
        .closed .drop, .owner (.place ⟨0, 1, 2, 5⟩), .owner (.write [99])]
    let session := (ofBuffer buffer).after events
    session.window = ⟨0, 1, 5, 5⟩ ∧ session.tape.atLineEnd = true ∧ session.Orderly buffer := by
  intro buffer events session
  have new : buffer.New := .growing 2 8 (by decide)
  have allowed : (ofBuffer buffer).Admits events :=
    ⟨rfl, rfl, trivial, trivial, trivial, rfl, rfl, trivial⟩
  exact ⟨by decide +kernel, by decide +kernel, (after_orderly new).1 events allowed⟩

end Session

end WireScan
