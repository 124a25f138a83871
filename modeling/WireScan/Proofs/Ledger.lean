import WireScan.Proofs.Trail

/-!
# What a buffer accepted

A ledger keeps the payloads that a buffer accepted since it was last cleared, as its replies tell
(`Command.payloads`), and for each reset that stands how many bytes had been accepted by then. It
knows nothing of indices. At every moment it accounts for the buffer (`Ledger.Accounts`): exactly the
accepted bytes are stored, the window begins where they ended at the last reset that stands and ends
where they end, and what was read of the window and what lies ahead make up those accepted since
(`Session.after_accounts`).
-/
namespace WireScan

/-! ## Payloads -/

/-- The parts of a text that a growing buffer accepts, as bytes. -/
def Growing.accepted : List String → Growing → List (List UInt8)
  | [], _ => []
  | part :: rest, buffer =>
    match buffer.write (Utf8.encode part) with
    | .error _ => []
    | .ok next => Utf8.encode part :: accepted rest next

/-- The bytes were taken. -/
def Reply.accepts : Reply → Bool
  | .answer .done | .answer (.count _) => true
  | _ => false

namespace Command

/-- The bytes that a command adds as a whole, if it adds any so. -/
def payload? : Command → Option (List UInt8)
  | feed data | write data | send data | sendAll data => some data
  | writeOne byte => some [byte]
  | _ => none

/-- The payloads of a command that were accepted, in order: all it adds, or of a text the parts up to
the first that was refused. -/
def payloads (session : Session) (command : Command) : List (List UInt8) :=
  match command.payload? with
  | some data => if (command.perform session).reply.accepts then [data] else []
  | none =>
    match command, session.buffer with
    | format parts, .growing buffer => buffer.accepted parts
    | _, _ => []

end Command

/-- The accepted parts of a text are stored after all other bytes. -/
theorem Growing.toList_writeParts (parts : List String) (buffer : Growing) :
    (buffer.writeParts parts).buffer.tape.bytes.toList =
      buffer.tape.bytes.toList ++ (buffer.accepted parts).flatten := by
  induction parts generalizing buffer with
  | nil => exact (List.append_nil _).symm
  | cons part rest ih =>
    rw [writeParts, accepted]
    cases written : buffer.write (Utf8.encode part) with
    | error fault => exact (List.append_nil _).symm
    | ok next =>
      dsimp only
      rw [ih next, write_tape written, Tape.toList_append, List.flatten_cons, List.append_assoc]

/-- An entry that takes bytes has them stored after all others, and one that refuses them, or takes
none, changes nothing. -/
def Entry.Stores (session : Session) (data : List UInt8) (entry : Entry) : Prop :=
  entry.reply.accepts = true ∧ entry.session.tape = session.tape.append data ∨
    (entry.reply.accepts = false ∨ data = []) ∧ entry.session = session

/-- A write that is taken is stored. -/
theorem Session.writing_stores {session : Session} {buffer : Growing}
    (held : session.buffer = .growing buffer) (data : List UInt8) {reply : Reply}
    {refusal : Fault → Reply} (taken : reply.accepts = true)
    (refused : ∀ fault, (refusal fault).accepts = false) :
    (session.writing buffer data reply refusal).Stores session data := by
  unfold writing
  dsimp only
  split <;> rename_i written
  · refine .inl ⟨taken, ?_⟩
    rw [tape, tape, held]
    exact Growing.write_tape written
  · exact .inr ⟨.inl (refused _), rfl⟩

namespace Command

/-- What a command adds as a whole is stored when it was taken. -/
theorem perform_stores {command : Command} {data : List UInt8}
    (offered : command.payload? = some data) (session : Session) :
    (command.perform session).Stores session data := by
  have refused : (session.replying (.answer .undefined)).Stores session data :=
    .inr ⟨.inl rfl, rfl⟩
  cases command with
  | feed data =>
    cases offered
    cases held : session.buffer with
    | fixed buffer =>
      simp only [perform, held]
      cases fed : buffer.feed data with
      | error fault => exact .inr ⟨.inl rfl, rfl⟩
      | ok next =>
        obtain ⟨_, rfl⟩ := Fixed.feed_eq_ok_iff.mp fed
        refine .inl ⟨rfl, ?_⟩
        rw [Session.tape, Session.tape, held]
        rfl
    | _ => simp only [perform, held]; exact refused
  | write | writeOne | send =>
    cases offered
    cases held : session.buffer with
    | growing buffer =>
      simp only [perform, held]
      exact Session.writing_stores held _ rfl fun _ => rfl
    | _ => simp only [perform, held]; exact refused
  | sendAll data =>
    cases offered
    cases held : session.buffer with
    | growing buffer =>
      simp only [perform, held]
      split
      · rename_i empty
        exact .inr ⟨.inr empty, rfl⟩
      · exact Session.writing_stores held _ rfl fun _ => rfl
    | _ => simp only [perform, held]; exact refused
  | _ => cases offered

/-- A command stores the payloads that were accepted after all other bytes, unless it clears. -/
theorem toList_perform {command : Command} {session : Session}
    (allowed : (Event.owner command).Allowed session) (keeps : command ≠ .clear) :
    (command.perform session).session.tape.bytes.toList =
      session.tape.bytes.toList ++ (command.payloads session).flatten := by
  have nothing : ∀ next : Session, next.tape.bytes = session.tape.bytes →
      next.tape.bytes.toList = session.tape.bytes.toList ++ ([] : List (List UInt8)).flatten :=
    fun next same => by rw [same]; exact (List.append_nil _).symm
  unfold payloads
  cases offered : command.payload? with
  | some data =>
    dsimp only
    rcases perform_stores offered session with ⟨taken, stored⟩ | ⟨refused | rfl, same⟩
    · rw [taken, if_pos rfl, List.flatten_singleton, stored, Tape.toList_append]
    · rw [refused]
      exact nothing _ (congrArg (Tape.bytes ∘ Session.tape) same)
    · rw [same]
      split <;> exact (List.append_nil _).symm
  | none =>
    cases command with
    | clear => exact absurd rfl keeps
    | act action => exact nothing _ (action.perform_move session).keepsStore.bytes_eq
    | take =>
      refine nothing _ ?_
      unfold perform Tape.take?
      cases session.tape.peek? with
      | none => rfl
      | some byte => exact (Session.KeepsStore.of_window session _).bytes_eq
    | place window => exact nothing _ (Session.KeepsStore.of_window session window).bytes_eq
    | inspect => exact nothing _ rfl
    | flush =>
      cases held : session.buffer with
      | _ => simp only [perform, held]; exact nothing _ rfl
    | read skipped script => exact allowed.elim
    | format parts =>
      cases held : session.buffer with
      | growing buffer =>
        simp only [perform, held]
        rw [Session.tape, Session.tape, held]
        exact Growing.toList_writeParts parts buffer
      | _ => simp only [perform, held]; exact nothing _ rfl
    | _ => cases offered

/-- The command adds bytes, if they are accepted. -/
def Adds (command : Command) : Prop :=
  (∃ data, command.payload? = some data) ∨ ∃ parts, command = .format parts

/-- Bytes that are added change nothing of the window but where it stops. -/
theorem Adds.window_eq {command : Command} (adds : command.Adds) (session : Session) :
    (command.perform session).session.window =
      { session.window with stop := (command.perform session).session.window.stop } := by
  have appended : ∀ (next : Session) (data : List UInt8),
      next.tape = session.tape.append data →
        next.window = { session.window with stop := next.window.stop } := by
    intro next data stored
    rw [Session.window, stored]
    rfl
  have same : ∀ next : Session, next.tape = session.tape →
      next.window = { session.window with stop := next.window.stop } := by
    intro next kept
    rw [Session.window, kept]
    rfl
  obtain ⟨data, offered⟩ | ⟨parts, rfl⟩ := adds
  · rcases perform_stores offered session with ⟨_, stored⟩ | ⟨_, kept⟩
    · exact appended _ data stored
    · exact same _ (congrArg Session.tape kept)
  · cases held : session.buffer with
    | growing buffer =>
      simp only [perform, held]
      rcases Growing.writeParts_tape parts buffer with kept | ⟨data, stored⟩
      · exact same _ (by rw [kept, ← held])
      · exact appended _ data (by rw [Session.tape, Session.tape, held]; exact stored)
    | _ => simp only [perform, held, Session.replying]

end Command

namespace Event

variable {event : Event} {session : Session}

/-- The payloads of an event that were accepted, in order. -/
def payloads (session : Session) : Event → List (List UInt8)
  | owner command => command.payloads session
  | _ => []

/-- The event forgets all that is stored. Clearing lent bytes does nothing. -/
def Clears (session : Session) (event : Event) : Prop :=
  event = .owner .clear ∧ event.turn session = .renews

instance (session : Session) (event : Event) : Decidable (event.Clears session) :=
  inferInstanceAs (Decidable (_ ∧ _))

/-- After a clearing nothing is stored. -/
theorem Clears.tape_eq (clears : event.Clears session) :
    (event.apply session).tape = session.tape.clear := by
  obtain ⟨rfl, renews⟩ := clears
  cases held : session.buffer with
  | lent tape =>
    simp only [turn, held] at renews
    cases renews
  | _ =>
    simp only [apply, Command.perform, held]
    rw [Session.tape, Session.tape, held]
    rfl

/-- Every renewal is a clearing or a move of a reader. -/
theorem renews_cases (renews : event.turn session = .renews) :
    event.Clears session ∨ session.Move .renews (event.apply session) := by
  cases event with
  | reader action =>
    have moved := action.perform_move session
    rw [show action.turn = .renews from renews] at moved
    exact .inr moved
  | owner command =>
    cases command with
    | act action =>
      have moved := action.perform_move session
      rw [show action.turn = .renews from renews] at moved
      exact .inr moved
    | clear => exact .inl ⟨rfl, renews⟩
    | _ => cases renews
  | _ => cases renews

/-- An event stores the payloads that were accepted after all other bytes, unless it clears. -/
theorem toList_apply (allowed : event.Allowed session) (keeps : ¬event.Clears session) :
    (event.apply session).tape.bytes.toList =
      session.tape.bytes.toList ++ (event.payloads session).flatten := by
  have moves : ∀ {turn : Turn} {next : Session}, session.Move turn next →
      next.tape.bytes.toList = session.tape.bytes.toList ++ ([] : List (List UInt8)).flatten := by
    intro _ _ moved
    rw [moved.keepsStore.bytes_eq]
    exact (List.append_nil _).symm
  cases event with
  | owner command =>
    by_cases clear : command = .clear
    · subst clear
      cases held : session.buffer with
      | lent tape =>
        have same : (owner .clear).apply session = session := by
          simp only [apply, Command.perform, held, Session.replying]
        rw [same]
        exact (List.append_nil _).symm
      | _ => exact absurd ⟨rfl, by simp only [turn, held]⟩ keeps
    · exact Command.toList_perform allowed clear
  | reader action => exact moves (action.perform_move session)
  | opened => exact moves .opens
  | closed ending => exact moves (session.closeGuard_move ending)

end Event

/-! ## Ledgers -/

/-- What a buffer accepted since it was last cleared, and the resets since then that stand. -/
structure Ledger where
  /-- The payloads that were accepted, in order. -/
  stored : List (List UInt8)
  /-- How many bytes had been accepted at each reset that stands, the latest first. -/
  resets : Stacked (List Nat)
deriving DecidableEq, Repr

namespace Ledger

/-- The ledger of a buffer that accepted some payloads and was not reset. -/
def opening (payloads : List (List UInt8)) : Ledger := ⟨payloads, ⟨[], []⟩⟩

/-- The bytes that were accepted, in order. -/
def bytes (ledger : Ledger) : List UInt8 := ledger.stored.flatten

/-- How many bytes had been accepted at the last reset that stands, none if no reset stands. -/
def begun (ledger : Ledger) : Nat := ledger.resets.now.headD 0

/-- The ledger after an event. -/
def enter (session : Session) (event : Event) (ledger : Ledger) : Ledger :=
  if event.Clears session then opening []
  else
    ⟨ledger.stored ++ event.payloads session,
      ledger.resets.turned (event.turn session) <|
        match event.turn session with
        | .renews => ledger.bytes.length :: ledger.resets.now
        | _ => ledger.resets.now⟩

/-- The ledger after events in order. -/
def after (events : List Event) (session : Session) (ledger : Ledger) : Ledger :=
  session.record enter events ledger

/-- A window starts where the bytes ended at the last reset, and stops where the bytes end. -/
structure Begun (bytes : Array UInt8) (resets : List Nat) (window : Window) : Prop where
  /-- The window starts where the bytes ended at the last reset. -/
  start : window.start = resets.headD 0
  /-- The window stops where the bytes end. -/
  stop : window.stop = bytes.size

/-- A ledger holds what is stored, and where the window and those that guards saved begin. -/
structure Fits (ledger : Ledger) (session : Session) : Prop where
  /-- What is stored was accepted. -/
  stored : session.tape.bytes.toList = ledger.bytes
  /-- The windows begin at resets that stand. -/
  windows : ledger.resets.Related (Begun session.tape.bytes) session.windows

variable {ledger : Ledger} {session : Session} {event : Event}

/-- An event keeps what a ledger says, unless it places the window. -/
theorem Fits.enter (fits : ledger.Fits session) (sound : session.Sound)
    (allowed : event.Allowed session) (unplaced : event.turn session ≠ .places) :
    (ledger.enter session event).Fits (event.apply session) := by
  have changed := Event.apply_change allowed
  have begun : Begun session.tape.bytes ledger.resets.now session.window := fits.windows.now
  rw [Ledger.enter]
  by_cases clears : event.Clears session
  · rw [if_pos clears]
    have empty := clears.tape_eq
    obtain ⟨rfl, _⟩ := clears
    have none : (Command.perform .clear session).session.guards = [] :=
      Command.perform_guards allowed .clear
    have window : ((Event.owner .clear).apply session).window = session.window.cleared :=
      congrArg Tape.window empty
    refine ⟨by rw [empty]; rfl, ?_, ?_⟩
    · rw [Session.windows, window, empty]
      exact ⟨rfl, rfl⟩
    · rw [Session.windows, Event.apply, none]
      exact .nil
  · rw [if_neg clears]
    refine ⟨?_, Stacked.Related.change fits.windows sound changed unplaced ?_⟩
    · rw [Event.toList_apply allowed clears, fits.stored]
      exact List.flatten_append.symm
    · rintro (turn | turn) <;> rw [turn] at changed ⊢ <;> dsimp only
      · rcases changed.goes_on sound with ⟨count, inside, same⟩ | ⟨_, data, same⟩
        · rw [Session.window, same]
          exact ⟨begun.start, begun.stop⟩
        · rw [Session.window, same]
          exact ⟨begun.start, rfl⟩
      · have renewed := (Event.renews_cases turn).resolve_left clears
        rw [Session.window, renewed.renews sound]
        refine ⟨?_, begun.stop⟩
        rw [← fits.stored, Array.length_toList]
        exact begun.stop

/-- Every allowed timeline that places no window keeps what a ledger says. -/
theorem Fits.after {events : List Event} (fits : ledger.Fits session) (sound : session.Sound)
    (allowed : session.Admits events) (unplaced : ∀ window, .owner (.place window) ∉ events) :
    (ledger.after events session).Fits (session.after events) :=
  Session.record_fits (fun _ _ _ => Fits.enter) fits sound allowed unplaced

end Ledger

/-- The buffers that take bytes, as they are at first, with the payloads they were made from. -/
inductive Buffer.Owned : Buffer → List (List UInt8) → Prop
  /-- A buffer of fixed capacity that holds nothing. -/
  | fixed (capacity : Nat) (indexed : capacity ≤ Index.largest) :
    Owned (.fixed (.empty capacity)) []
  /-- A buffer of fixed capacity that holds given bytes. -/
  | fixedOf {capacity : Nat} {data : List UInt8} {buffer : Fixed}
    (indexed : capacity ≤ Index.largest) (fits : Fixed.ofBytes capacity data = .ok buffer) :
    Owned (.fixed buffer) [data]
  /-- A growing buffer that holds nothing. -/
  | growing (room limit : Nat) (indexed : limit ≤ Index.largest) :
    Owned (.growing (.empty room limit)) []

namespace Buffer.Owned

variable {buffer : Buffer} {payloads : List (List UInt8)}

/-- A buffer that takes bytes is new at first. -/
theorem new (owned : buffer.Owned payloads) : buffer.New := by
  cases owned with
  | fixed capacity indexed => exact .fixed capacity indexed
  | fixedOf indexed fits => exact .fixedOf indexed fits
  | growing room limit indexed => exact .growing room limit indexed

/-- At first a buffer stores what it was made from. -/
theorem fits (owned : buffer.Owned payloads) :
    (Ledger.opening payloads).Fits (Session.ofBuffer buffer) := by
  cases owned with
  | fixed capacity indexed => exact ⟨rfl, ⟨rfl, rfl⟩, .nil⟩
  | @fixedOf capacity data buffer indexed fits =>
    obtain ⟨_, rfl⟩ := Fixed.ofBytes_eq_ok_iff.mp fits
    exact ⟨(List.append_nil data).symm, ⟨rfl, rfl⟩, .nil⟩
  | growing room limit indexed => exact ⟨rfl, ⟨rfl, rfl⟩, .nil⟩

end Buffer.Owned

namespace Ledger

/-- What a ledger and a trail say of a session: what is stored, where the window lies in it, and what
was read of the window. -/
structure Accounts (ledger : Ledger) (trail : Trail) (session : Session) : Prop where
  /-- Exactly the accepted bytes are stored, in order. -/
  stored : session.tape.bytes.toList = ledger.stored.flatten
  /-- The window stops where they end. -/
  stop : session.window.stop = session.tape.bytes.size
  /-- The window starts where they ended at the last reset that stands. -/
  start : session.window.start = ledger.begun
  /-- The window is all that is stored from its start on. -/
  contents : session.tape.contents = session.tape.bytes.toList.drop session.window.start
  /-- All that is stored from the read position on lies ahead. -/
  ahead : session.tape.ahead = session.tape.bytes.toList.drop session.window.pos
  /-- What was read of the window and what lies ahead are the bytes accepted since that reset. -/
  passed : trail.now ++ session.tape.ahead = ledger.stored.flatten.drop ledger.begun

/-- A ledger and a trail that fit a sound session account for it. -/
theorem Fits.accounts {ledger : Ledger} {trail : Trail} {session : Session}
    (fits : ledger.Fits session) (trail_fits : trail.Fits session) (sound : session.Sound) :
    ledger.Accounts trail session := by
  have valid : session.tape.Valid := sound.buffer.tape.valid
  have begun : Begun session.tape.bytes ledger.resets.now session.window := fits.windows.now
  have whole : session.tape.bytes.toList.take session.tape.window.stop = session.tape.bytes.toList := by
    rw [show session.tape.window.stop = _ from begun.stop, ← Array.length_toList, List.take_length]
  have contents := Tape.contents_eq valid
  have ahead := Tape.ahead_eq valid
  rw [whole] at contents ahead
  refine ⟨fits.stored, begun.stop, begun.start, contents, ahead, ?_⟩
  have started : session.tape.window.start ≤
      (session.tape.bytes.toList.take session.tape.window.pos).length := by
    have ⟨ordered, reached, bounded⟩ := valid
    rw [List.length_take, Array.length_toList]
    omega
  have passed : trail.now = (session.tape.bytes.toList.take session.tape.window.pos).drop
      session.tape.window.start := trail_fits.now
  have start : session.tape.window.start = ledger.begun := begun.start
  rw [ahead, passed, ← List.drop_append_of_le_length started, List.take_append_drop, start,
    fits.stored]
  rfl

end Ledger

namespace Session

/-- **Nothing that was accepted is lost, doubled or moved.** On every allowed timeline from a new
buffer that takes bytes, as long as no window is placed, the ledger of its payloads accounts for what
is stored and for the window. A command that adds bytes changes nothing of the window but where it
stops, and nothing but a clearing takes the stop back. -/
theorem after_accounts {buffer : Buffer} {payloads : List (List UInt8)}
    (owned : buffer.Owned payloads) {events : List Event}
    (allowed : (ofBuffer buffer).Admits events)
    (unplaced : ∀ window, .owner (.place window) ∉ events) :
    let session := (ofBuffer buffer).after events
    let ledger := (Ledger.opening payloads).after events (ofBuffer buffer)
    let trail := Trail.start.after events (ofBuffer buffer)
    ledger.Accounts trail session ∧
      (∀ command : Command, command.Adds →
        (command.perform session).session.window =
          { session.window with stop := (command.perform session).session.window.stop }) ∧
      ∀ event : Event, event.Allowed session → event ≠ .owner .clear →
        (∀ window, event ≠ .owner (.place window)) →
          session.window.stop ≤ (event.apply session).window.stop := by
  intro session ledger trail
  have sound : session.Sound := (sound_ofBuffer owned.new).after allowed
  have fits : ledger.Fits session := owned.fits.after (sound_ofBuffer owned.new) allowed unplaced
  have trail_fits : trail.Fits session :=
    (Trail.start_fits owned.new).after (sound_ofBuffer owned.new) allowed unplaced
  refine ⟨fits.accounts trail_fits sound, fun command adds => adds.window_eq session, ?_⟩
  intro event event_allowed keeps unplaces
  have turn : event.turn session ≠ .places := by
    intro places
    obtain ⟨window, same⟩ := Event.turn_eq_places places
    exact unplaces window same
  have next := fits.enter sound event_allowed turn
  have stored := Event.toList_apply event_allowed fun clears => keeps clears.1
  have sizes := congrArg List.length stored
  rw [List.length_append, Array.length_toList, Array.length_toList] at sizes
  rw [show session.window.stop = _ from fits.windows.now.stop,
    show (event.apply session).window.stop = _ from next.windows.now.stop, sizes]
  exact Nat.le_add_right _ _

/-- A buffer made from two bytes takes one more, refuses a feed that would fill it, is reset, takes two
more, and is reset again under a guard that undoes it. -/
theorem after_accounts_undone_reset :
    let buffer : Buffer := .fixed ⟨.ofBytes [97, 98], 8⟩
    let events : List Event :=
      [.owner (.feed [99]), .owner (.feed [1, 2, 3, 4, 5]), .owner (.act .reset),
        .owner (.feed [100, 101]), .opened, .reader .reset, .closed .drop, .reader (.advance 1)]
    let session := (ofBuffer buffer).after events
    let ledger := (Ledger.opening [[97, 98]]).after events (ofBuffer buffer)
    let trail := Trail.start.after events (ofBuffer buffer)
    ledger.stored = [[97, 98], [99], [100, 101]] ∧ ledger.begun = 3 ∧ trail.now = [100] ∧
      ledger.Accounts trail session := by
  intro buffer events session ledger trail
  have owned : buffer.Owned [[97, 98]] := @Buffer.Owned.fixedOf 8 [97, 98] _ (by decide) rfl
  have allowed : (ofBuffer buffer).Admits events :=
    ⟨rfl, rfl, rfl, rfl, trivial, trivial, trivial, trivial, trivial⟩
  have unplaced : ∀ window, .owner (.place window) ∉ events := by simp [events]
  exact ⟨by decide +kernel, by decide +kernel, by decide +kernel,
    (after_accounts owned allowed unplaced).1⟩

end Session

end WireScan
