import WireScan.Command
import WireScan.Proofs.Moves

/-!
# Timelines

A timeline is a list of the events that a session goes through: commands of the owner, actions of a
reader, and guards that are opened and ended. The owner has the buffer only while no guard is open
(`Event.Allowed`). Every script and every list of commands is such a timeline
(`Script.after_events`, `Command.admits_eventsAll`), so what holds at the end of every allowed
timeline holds at every moment of every run. An allowed event is one of few changes
(`Event.apply_change`), and since each of these keeps a session sound, every session that an allowed
timeline leads to from a new buffer is (`Session.Reached.sound`).
-/
namespace WireScan

/-- One thing that happens to a session. -/
inductive Event
  /-- The owner of the buffer carries out a command. -/
  | owner (command : Command)
  /-- A reader performs an action. -/
  | reader (action : Action)
  /-- A reader opens a guard. -/
  | opened
  /-- The innermost guard ends. -/
  | closed (ending : Ending)
deriving DecidableEq, Repr

namespace Event

/-- The session after an event. -/
def apply (session : Session) : Event → Session
  | owner command => (command.perform session).session
  | reader action => (action.perform session).session
  | opened => session.openGuard
  | closed ending => (session.closeGuard ending).1

/-- What becomes of the window by an event. Clearing lent bytes does nothing. -/
def turn (session : Session) : Event → Turn
  | owner (.act action) | reader action => action.turn
  | owner (.place _) => .places
  | owner .clear =>
    match session.buffer with
    | .lent _ => .goesOn
    | _ => .renews
  | owner _ => .goesOn
  | opened => .opens
  | closed ending => .closes (session.returning ending)

/-- The owner has the buffer where no guard is open. What a reader does for the owner are events of
its own. -/
def Allowed (session : Session) : Event → Prop
  | owner (.read _ _) => False
  | owner _ => session.guards = []
  | _ => True

end Event

/-- The owner opens no guard. -/
theorem Event.turn_owner_ne (command : Command) (session : Session) :
    (owner command).turn session ≠ .opens := by
  cases command with
  | act action => cases action <;> nofun
  | clear =>
    simp only [turn]
    split <;> nofun
  | _ => nofun

/-- Only the owner places the window. -/
theorem Event.turn_eq_places {event : Event} {session : Session}
    (places : event.turn session = .places) : ∃ window, event = .owner (.place window) := by
  cases event with
  | owner command =>
    cases command with
    | place window => exact ⟨window, rfl⟩
    | act action => cases action <;> cases places
    | clear =>
      simp only [turn] at places
      split at places <;> cases places
    | _ => cases places
  | reader action => cases action <;> cases places
  | _ => cases places

namespace Session

/-- The session after events in order. -/
def after : List Event → Session → Session
  | [], session => session
  | event :: later, session => after later (event.apply session)

/-- Every event is allowed where it happens. -/
def Admits : List Event → Session → Prop
  | [], _ => True
  | event :: later, session => event.Allowed session ∧ Admits later (event.apply session)

/-- Events may be counted in one after the other. -/
theorem after_append (first second : List Event) (session : Session) :
    session.after (first ++ second) = (session.after first).after second := by
  induction first generalizing session with
  | nil => rfl
  | cons event first ih => exact ih _

/-- A timeline is allowed when its parts are. -/
theorem admits_append (first second : List Event) (session : Session) :
    session.Admits (first ++ second) ↔
      session.Admits first ∧ (session.after first).Admits second := by
  induction first generalizing session with
  | nil => exact ⟨fun allowed => ⟨trivial, allowed⟩, And.right⟩
  | cons event first ih =>
    simp only [List.cons_append, Admits, after, ih, and_assoc]

/-- Where no event places a window the first does not, nor do the others. -/
theorem unplaced_cons {event : Event} {later : List Event}
    (unplaced : ∀ window, .owner (.place window) ∉ event :: later) (session : Session) :
    event.turn session ≠ .places ∧ ∀ window, .owner (.place window) ∉ later := by
  refine ⟨fun places => ?_, fun window among => unplaced window (List.mem_cons_of_mem _ among)⟩
  obtain ⟨window, rfl⟩ := Event.turn_eq_places places
  exact unplaced window List.mem_cons_self

/-! ## Changes -/

/-- What an event can make of a session. -/
inductive Change (session : Session) : Turn → Session → Prop
  /-- A reader moves. -/
  | moves {turn : Turn} {next : Session} (moved : session.Move turn next) : Change session turn next
  /-- The owner adds bytes. -/
  | adds {buffer : Buffer} (data : List UInt8) (unguarded : session.guards = [])
    (stored : buffer.tape = session.tape.append data)
    (sound : session.buffer.Sound → buffer.Sound) : Change session .goesOn { session with buffer }
  /-- The owner clears the buffer. -/
  | clears {buffer : Buffer} (unguarded : session.guards = [])
    (cleared : buffer.tape = session.tape.clear)
    (sound : session.buffer.Sound → buffer.Sound) : Change session .renews { session with buffer }
  /-- The owner places the window. -/
  | places (window : Window) :
    Change session .places (session.withTape (session.tape.restore window))

variable {session : Session}

/-- A write adds its bytes or is refused. -/
theorem writing_change {buffer : Growing} (held : session.buffer = .growing buffer)
    (unguarded : session.guards = []) (data : List UInt8) (reply : Reply)
    (refusal : Fault → Reply) :
    session.Change .goesOn (session.writing buffer data reply refusal).session := by
  unfold writing
  dsimp only
  split <;> rename_i accepted
  · refine .adds data unguarded ?_ fun sound => ?_
    · rw [tape, held]
      exact Growing.write_tape accepted
    · rw [held] at sound
      exact sound.write accepted
  · exact .moves .looks

end Session

/-- The parts of a text that were accepted are added one after the other. -/
theorem Growing.writeParts_tape (parts : List String) (buffer : Growing) :
    (buffer.writeParts parts).buffer = buffer ∨
      ∃ data, (buffer.writeParts parts).buffer.tape = buffer.tape.append data := by
  induction parts generalizing buffer with
  | nil => exact .inl rfl
  | cons part rest ih =>
    rw [writeParts]
    cases written : buffer.write (Utf8.encode part) with
    | error fault => exact .inl rfl
    | ok next =>
      have stored := write_tape written
      rcases ih next with same | ⟨data, added⟩
      · exact .inr ⟨Utf8.encode part, by dsimp only; rw [same, stored]⟩
      · refine .inr ⟨Utf8.encode part ++ data, ?_⟩
        dsimp only
        rw [added, stored, Tape.append_append]

namespace Session

variable {session : Session}

/-- A text is added as far as its parts were accepted. -/
theorem format_change {buffer : Growing} (held : session.buffer = .growing buffer)
    (unguarded : session.guards = []) (parts : List String) :
    session.Change .goesOn
      { session with buffer := .growing (buffer.writeParts parts).buffer } := by
  rcases Growing.writeParts_tape parts buffer with same | ⟨data, added⟩
  · rw [same, ← held]
    exact .moves .looks
  · refine .adds data unguarded ?_ fun sound => ?_
    · rw [tape, held]
      exact added
    · rw [held] at sound
      exact sound.writeParts parts

/-- A feed adds its bytes or is refused. -/
theorem feed_change {buffer : Fixed} (held : session.buffer = .fixed buffer)
    (unguarded : session.guards = []) (data : List UInt8) :
    session.Change .goesOn ((Command.feed data).perform session).session := by
  simp only [Command.perform, held]
  cases fed : buffer.feed data with
  | error fault => exact .moves .looks
  | ok next =>
    refine .adds data unguarded ?_ fun sound => ?_
    · rw [tape, held, (Fixed.feed_eq_ok_iff.mp fed).2]
      rfl
    · rw [held] at sound
      exact sound.feed fed

/-- A buffer of fixed capacity is cleared with its room kept. -/
theorem clear_change_fixed {buffer : Fixed} (held : session.buffer = .fixed buffer)
    (unguarded : session.guards = []) :
    session.Change .renews { session with buffer := .fixed buffer.clear } := by
  refine .clears unguarded (by rw [tape, held]; rfl) fun sound => ?_
  rw [held] at sound
  exact ⟨Tape.clear_valid _, Nat.zero_le _, sound.indexed⟩

/-- A growing buffer is cleared with its room kept. -/
theorem clear_change_growing {buffer : Growing} (held : session.buffer = .growing buffer)
    (unguarded : session.guards = []) :
    session.Change .renews { session with buffer := .growing buffer.clear } := by
  refine .clears unguarded (by rw [tape, held]; rfl) fun sound => ?_
  rw [held] at sound
  exact ⟨Tape.clear_valid _, Nat.zero_le _, sound.capacity_le, sound.indexed⟩

/-- Reading one byte is a move. -/
theorem take_change :
    session.Change .goesOn (Command.take.perform session).session := by
  unfold Command.perform Tape.take?
  cases found : session.tape.peek? with
  | none => exact .moves .looks
  | some byte =>
    have inside : 1 ≤ session.tape.available := by
      unfold Tape.peek? at found
      unfold Tape.available Window.available
      split at found
      · cases found
      · omega
    exact .moves (.reads 1 inside)

end Session

/-- A command of the owner is a change of its turn. -/
theorem Command.perform_change {command : Command} {session : Session}
    (allowed : (Event.owner command).Allowed session) :
    session.Change ((Event.owner command).turn session) (command.perform session).session := by
  cases command with
  | act action => exact .moves (action.perform_move session)
  | take => exact Session.take_change
  | place window => exact .places window
  | inspect => exact .moves .looks
  | read skipped script => exact allowed.elim
  | feed data =>
    cases held : session.buffer with
    | fixed buffer => exact Session.feed_change held allowed data
    | _ => simp only [perform, held]; exact .moves .looks
  | clear =>
    simp only [perform, Event.turn]
    cases held : session.buffer with
    | lent tape => exact .moves .looks
    | fixed buffer => exact Session.clear_change_fixed held allowed
    | growing buffer => exact Session.clear_change_growing held allowed
  | flush => cases held : session.buffer <;> simp only [perform, held] <;> exact .moves .looks
  | format parts =>
    cases held : session.buffer with
    | growing buffer => simp only [perform, held]; exact Session.format_change held allowed parts
    | _ => simp only [perform, held]; exact .moves .looks
  | sendAll data =>
    cases held : session.buffer with
    | growing buffer =>
      simp only [perform, held]
      split
      · exact .moves .looks
      · exact Session.writing_change held allowed _ _ _
    | _ => simp only [perform, held]; exact .moves .looks
  | write data =>
    cases held : session.buffer with
    | growing buffer => simp only [perform, held]; exact Session.writing_change held allowed _ _ _
    | _ => simp only [perform, held]; exact .moves .looks
  | writeOne byte =>
    cases held : session.buffer with
    | growing buffer => simp only [perform, held]; exact Session.writing_change held allowed _ _ _
    | _ => simp only [perform, held]; exact .moves .looks
  | send data =>
    cases held : session.buffer with
    | growing buffer => simp only [perform, held]; exact Session.writing_change held allowed _ _ _
    | _ => simp only [perform, held]; exact .moves .looks

/-- An allowed event is a change of its turn. -/
theorem Event.apply_change {event : Event} {session : Session} (allowed : event.Allowed session) :
    session.Change (event.turn session) (event.apply session) := by
  cases event with
  | owner command => exact command.perform_change allowed
  | reader action => exact .moves (action.perform_move session)
  | opened => exact .moves .opens
  | closed ending => exact .moves (session.closeGuard_move ending)

/-! ## Sound sessions -/

/-- The buffer is sound, and every window that a guard may put back lies inside its store. -/
structure Session.Sound (session : Session) : Prop where
  /-- The buffer is sound. -/
  buffer : session.buffer.Sound
  /-- The guards remember windows inside the store. -/
  saved : ∀ guard ∈ session.guards, guard.saved.Within session.tape.bytes.size

namespace Session

variable {session : Session}

/-- A session that begins to read a new buffer is sound. -/
theorem sound_ofBuffer {buffer : Buffer} (new : buffer.New) : (ofBuffer buffer).Sound :=
  ⟨new.sound, fun _ among => nomatch among⟩

/-- The growing buffer that a sound session reads is sound. -/
theorem Sound.growing {buffer : Growing} (sound : session.Sound)
    (held : session.buffer = .growing buffer) : buffer.Sound := by
  have whole := sound.buffer
  rw [held] at whole
  exact whole

/-- A window put in over the same bytes keeps a session sound, with as many of its guards. -/
theorem Sound.restore (sound : session.Sound) (window : Window) {guards : List Guard}
    (among : ∀ guard ∈ guards, guard ∈ session.guards) :
    (({ session with guards } : Session).withTape (session.tape.restore window)).Sound := by
  refine ⟨sound.buffer.withTape (Tape.restore_valid _ _) rfl, fun guard inside => ?_⟩
  rw [withTape, tape, Buffer.tape_withTape]
  exact sound.saved guard (among guard inside)

/-- Every move keeps a session sound. -/
theorem Sound.move {turn : Turn} {next : Session} (sound : session.Sound)
    (moved : session.Move turn next) : next.Sound := by
  have all : ∀ guard ∈ session.guards, guard ∈ session.guards := fun _ among => among
  cases moved with
  | looks => exact sound
  | marks name => exact ⟨sound.buffer, sound.saved⟩
  | reads count inside => exact sound.restore _ all
  | @disarms innermost outer found =>
    refine ⟨sound.buffer, fun guard among => ?_⟩
    have saved := sound.saved
    rw [found] at saved
    rcases List.mem_cons.mp among with rfl | among
    · exact saved innermost List.mem_cons_self
    · exact saved guard (List.mem_cons_of_mem _ among)
  | resets => exact sound.restore _ all
  | returns found => exact sound.restore _ all
  | unguarded none => exact sound
  | opens =>
    refine ⟨sound.buffer, fun guard among => ?_⟩
    rcases List.mem_cons.mp among with rfl | among
    · exact sound.buffer.tape.valid
    · exact sound.saved guard among
  | leaves found =>
    refine ⟨sound.buffer, fun guard among => sound.saved guard ?_⟩
    rw [found]
    exact List.mem_cons_of_mem _ among
  | restores found =>
    refine sound.restore _ fun guard among => ?_
    rw [found]
    exact List.mem_cons_of_mem _ among
  | unopened none => exact sound

/-- No guard is open after a change that opens none, where none was open before it. -/
theorem Change.unguarded {turn : Turn} {next : Session} (changed : session.Change turn next)
    (unopened : turn ≠ .opens) (unguarded : session.guards = []) : next.guards = [] := by
  cases changed with
  | moves moved =>
    cases moved with
    | opens => exact absurd rfl unopened
    | disarms found => cases unguarded.symm.trans found
    | leaves found => cases unguarded.symm.trans found
    | restores found => cases unguarded.symm.trans found
    | _ => exact unguarded
  | _ => exact unguarded

/-- Every change keeps a session sound. -/
theorem Sound.change {turn : Turn} {next : Session} (sound : session.Sound)
    (changed : session.Change turn next) : next.Sound := by
  cases changed with
  | moves moved => exact sound.move moved
  | adds data unguarded stored sounds =>
    exact ⟨sounds sound.buffer, fun guard among => nomatch unguarded ▸ among⟩
  | clears unguarded cleared sounds =>
    exact ⟨sounds sound.buffer, fun guard among => nomatch unguarded ▸ among⟩
  | places window => exact sound.restore window fun _ among => among

/-- Every allowed timeline keeps a session sound. -/
theorem Sound.after {events : List Event} (sound : session.Sound)
    (allowed : session.Admits events) : (session.after events).Sound := by
  induction events generalizing session with
  | nil => exact sound
  | cons event later ih => exact ih (sound.change (Event.apply_change allowed.1)) allowed.2

/-- An allowed timeline leads to the session from a session that begins to read a new buffer. -/
def Reached (session : Session) : Prop :=
  ∃ (buffer : Buffer) (events : List Event),
    buffer.New ∧ (ofBuffer buffer).Admits events ∧ (ofBuffer buffer).after events = session

/-- Every reached session is sound. -/
theorem Reached.sound (reached : session.Reached) : session.Sound := by
  obtain ⟨buffer, events, new, allowed, rfl⟩ := reached
  exact (sound_ofBuffer new).after allowed

end Session

/-! ## Scripts and commands as timelines -/

namespace Script

/-- The events of a script. -/
def events (strict : Bool) : Script → Session → List Event
  | .done, _ => []
  | .act action next, session =>
    let step := action.perform session
    if strict ∧ step.answer.isFault then [.reader action]
    else .reader action :: next.events strict step.session
  | .guarded strictly body asked next, session =>
    let inner := body.run strictly session.openGuard
    .opened :: body.events strictly session.openGuard ++
      .closed (if inner.failed then .drop else asked) ::
        next.events strict (closing strictly body asked session)

/-- The events of a script lead where the script leads. -/
theorem after_events (strict : Bool) (script : Script) (session : Session) :
    session.after (script.events strict session) = (script.run strict session).session := by
  induction script generalizing strict session with
  | done => rfl
  | act action next ih =>
    rw [events, run]
    dsimp only
    split
    · rfl
    · exact ih strict _
  | guarded strictly body asked next body_ih next_ih =>
    rw [events, run_guarded, ← next_ih strict, closing, ← body_ih, List.cons_append]
    exact Session.after_append _ _ session.openGuard

/-- The events of a script are allowed in every session. -/
theorem admits_events (strict : Bool) (script : Script) (session : Session) :
    session.Admits (script.events strict session) := by
  induction script generalizing strict session with
  | done => trivial
  | act action next ih =>
    rw [events]
    split
    · exact ⟨trivial, trivial⟩
    · exact ⟨trivial, ih strict _⟩
  | guarded strictly body asked next body_ih next_ih =>
    rw [events, List.cons_append]
    refine ⟨trivial, (Session.admits_append _ _ _).mpr ⟨body_ih strictly _, trivial, ?_⟩⟩
    change Session.Admits _ (Session.closeGuard _ (Session.after _ session.openGuard)).1
    rw [after_events]
    exact next_ih strict _

end Script

namespace Command

/-- The events of a command. Where a reader cannot skip as many bytes as asked it does nothing
more. -/
def events (session : Session) : Command → List Event
  | .read none script => script.events false session
  | .read (some count) script =>
    .owner (.act (.advance count)) ::
      match session.tape.advance count with
      | .ok tape => script.events false (session.withTape tape)
      | .error _ => []
  | command => [.owner command]

/-- The events of commands in order. -/
def eventsAll : List Command → Session → List Event
  | [], _ => []
  | command :: later, session =>
    command.events session ++ eventsAll later (command.perform session).session

/-- The events of a command lead where the command leads. -/
theorem after_events (command : Command) (session : Session) :
    session.after (command.events session) = (command.perform session).session := by
  cases command with
  | read skipped script =>
    cases skipped with
    | none => exact script.after_events false session
    | some count =>
      simp only [events, Session.after, Event.apply, perform, Action.perform, Session.stepping]
      cases session.tape.advance count with
      | ok tape => exact script.after_events false _
      | error fault => rfl
  | _ => rfl

/-- After a command no guard is open where none was open before it. -/
theorem perform_guards {session : Session} (unguarded : session.guards = [])
    (command : Command) : (command.perform session).session.guards = [] := by
  have ran : ∀ (script : Script) (begun : Session), begun.guards = [] →
      (script.run false begun).session.guards = [] := by
    intro script begun none
    rw [Script.run_guards, none]
    rfl
  cases command with
  | read skipped script =>
    cases skipped with
    | none => exact ran script session unguarded
    | some count =>
      simp only [perform]
      cases session.tape.advance count with
      | ok tape => exact ran script _ unguarded
      | error fault => exact unguarded
  | _ =>
    refine (perform_change ?_).unguarded (Event.turn_owner_ne _ session) unguarded
    exact unguarded

/-- The events of commands are allowed in a session that no guard is open on. -/
theorem admits_events {session : Session} (unguarded : session.guards = [])
    (command : Command) : session.Admits (command.events session) := by
  cases command with
  | read skipped script =>
    cases skipped with
    | none => exact script.admits_events false session
    | some count =>
      refine ⟨unguarded, ?_⟩
      simp only [Event.apply, perform, Action.perform, Session.stepping]
      cases session.tape.advance count with
      | ok tape => exact script.admits_events false _
      | error fault => trivial
  | _ => exact ⟨unguarded, trivial⟩

/-- Commands are an allowed timeline that leads where they lead. -/
theorem admits_eventsAll (commands : List Command) {session : Session}
    (unguarded : session.guards = []) :
    session.Admits (eventsAll commands session) ∧
      session.after (eventsAll commands session) =
        (((performAll commands session).getLast?.map Entry.session).getD session) := by
  induction commands generalizing session with
  | nil => exact ⟨trivial, rfl⟩
  | cons command later ih =>
    have ⟨allowed, led⟩ := ih (command.perform_guards unguarded)
    rw [eventsAll, performAll, Session.admits_append, Session.after_append, after_events, led]
    refine ⟨⟨admits_events unguarded command, allowed⟩, ?_⟩
    rw [List.getLast?_cons]
    cases (performAll later (command.perform session).session).getLast? <;> rfl

end Command

end WireScan
