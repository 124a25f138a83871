import WireScan.Proofs.Ledger
import WireScan.Proofs.Views

/-!
# Room in a buffer of fixed capacity

A buffer of fixed capacity keeps one byte free from feeds. Only a feed that is accepted and a
clearing change how much it stores (`Fixed.Undergoes`), so at every moment it stores what it was
made from, unless it was cleared since, and the feeds that were accepted since then
(`Fixed.Stocked.after`). From that follows which feeds are accepted and how much room they leave
(`Session.after_rationed`): a buffer can be made full, but no feed fills it, and once it was cleared
it is full only if it has no capacity at all.
-/
namespace WireScan

/-- What an event makes of a buffer of fixed capacity in a session. -/
inductive Fixed.Undergoes (buffer : Fixed) (session : Session) : Event → Fixed → Prop
  /-- It is cleared. -/
  | clears : Undergoes buffer session (.owner .clear) buffer.clear
  /-- It accepts a feed. -/
  | feeds {data : List UInt8} {next : Fixed} (accepted : buffer.feed data = .ok next) :
    Undergoes buffer session (.owner (.feed data)) next
  /-- Nothing but the window changes, and no payload is accepted. -/
  | keeps {event : Event} (window : Window) (other : event ≠ .owner .clear)
    (nothing : event.payloads session = []) :
    Undergoes buffer session event { buffer with tape := { buffer.tape with window } }

section

variable {session next : Session} {buffer : Fixed}

/-- What keeps the store changes nothing of a buffer of fixed capacity but its window. -/
theorem Session.KeepsStore.undergoes (kept : session.KeepsStore next)
    (held : session.buffer = .fixed buffer) {event : Event} (other : event ≠ .owner .clear)
    (nothing : event.payloads session = []) :
    ∃ changed, next.buffer = .fixed changed ∧ buffer.Undergoes session event changed := by
  obtain ⟨window, moved⟩ := kept
  rw [tape, held] at moved
  exact ⟨_, moved, .keeps window other nothing⟩

namespace Command

/-- A feed that the buffer of fixed capacity accepts leaves it as it then is. -/
theorem perform_feed_of_ok (held : session.buffer = .fixed buffer) {data : List UInt8}
    {fed : Fixed} (accepted : buffer.feed data = .ok fed) :
    (feed data).perform session = ⟨.answer .done, { session with buffer := .fixed fed }, []⟩ := by
  have admitted := (Fixed.feed_eq_ok_iff.mp accepted).1
  simp only [perform, held, accepted, Fixed.feedNotes, if_pos admitted]

/-- A feed that the buffer of fixed capacity refuses changes nothing. -/
theorem perform_feed_of_error (held : session.buffer = .fixed buffer) {data : List UInt8}
    {fault : Fault} (refused : buffer.feed data = .error fault) :
    (feed data).perform session = ⟨.answer (.fault .noRoom), session,
      [.feedRefused data.length buffer.size buffer.capacity]⟩ := by
  obtain ⟨exceeds, rfl⟩ := Fixed.feed_eq_error_iff.mp refused
  simp only [perform, held, refused, Fixed.feedNotes, if_neg exceeds]

/-- A feed is accepted exactly where the buffer of fixed capacity admits it. -/
theorem accepts_feed_iff (held : session.buffer = .fixed buffer) (data : List UInt8) :
    ((feed data).perform session).reply.accepts = true ↔ buffer.Admits data.length := by
  cases fed : buffer.feed data with
  | ok next =>
    rw [perform_feed_of_ok held fed]
    exact ⟨fun _ => (Fixed.feed_eq_ok_iff.mp fed).1, fun _ => rfl⟩
  | error fault =>
    rw [perform_feed_of_error held fed]
    exact ⟨nofun, fun admitted => absurd admitted (Fixed.feed_eq_error_iff.mp fed).1⟩

/-- The payload of a feed counts as accepted exactly where it was. -/
theorem payloads_feed (data : List UInt8) (session : Session) :
    (feed data).payloads session =
      if ((feed data).perform session).reply.accepts then [data] else [] := rfl

/-- What a command makes of a buffer of fixed capacity. -/
theorem perform_undergoes (command : Command) (held : session.buffer = .fixed buffer) :
    ∃ changed, (command.perform session).session.buffer = .fixed changed ∧
      buffer.Undergoes session (.owner command) changed := by
  by_cases clear : command = .clear
  · subst clear
    simp only [perform, held]
    exact ⟨_, rfl, .clears⟩
  have other : Event.owner command ≠ .owner .clear := fun same => clear (Event.owner.inj same)
  have unchanged : command.payloads session = [] →
      ∃ changed, session.buffer = .fixed changed ∧
        buffer.Undergoes session (.owner command) changed :=
    fun nothing => ⟨buffer, held, .keeps buffer.tape.window other nothing⟩
  cases command with
  | clear => exact absurd rfl clear
  | act action => exact (action.perform_move session).keepsStore.undergoes held other rfl
  | read skipped script => exact (read_keepsStore skipped script session).undergoes held other rfl
  | take =>
    simp only [perform]
    unfold Tape.take?
    cases session.tape.peek? with
    | none => exact unchanged rfl
    | some byte => exact (Session.KeepsStore.of_window session _).undergoes held other rfl
  | place window => exact (Session.KeepsStore.of_window session window).undergoes held other rfl
  | inspect => exact unchanged rfl
  | feed data =>
    cases fed : buffer.feed data with
    | ok next =>
      rw [perform_feed_of_ok held fed]
      exact ⟨next, rfl, .feeds fed⟩
    | error fault =>
      have refused := perform_feed_of_error held fed
      rw [refused]
      refine unchanged ?_
      rw [payloads_feed, refused]
      rfl
  | format parts =>
    simp only [perform, held]
    refine unchanged ?_
    simp only [payloads, payload?, held]
  | flush =>
    simp only [perform, held]
    exact unchanged rfl
  | write | writeOne | send | sendAll =>
    simp only [perform, held]
    refine unchanged ?_
    simp only [payloads, payload?, perform, held]
    rfl

end Command

/-- What an event makes of a buffer of fixed capacity. -/
theorem Event.apply_undergoes (event : Event) (held : session.buffer = .fixed buffer) :
    ∃ changed, (event.apply session).buffer = .fixed changed ∧
      buffer.Undergoes session event changed := by
  cases event with
  | owner command => exact command.perform_undergoes held
  | reader action => exact (action.perform_move session).keepsStore.undergoes held nofun rfl
  | opened => exact ⟨buffer, held, .keeps buffer.tape.window nofun rfl⟩
  | closed ending => exact (session.closeGuard_move ending).keepsStore.undergoes held nofun rfl

/-- Of a ledger the clearing of a buffer of fixed capacity leaves nothing, and every other event
leaves all of it. -/
theorem Ledger.stored_enter (held : session.buffer = .fixed buffer) (event : Event)
    (ledger : Ledger) :
    (ledger.enter session event).stored =
      if event = .owner .clear then [] else ledger.stored ++ event.payloads session := by
  rw [enter]
  by_cases clear : event = .owner .clear
  · have clears : event.Clears session := by
      refine ⟨clear, ?_⟩
      subst clear
      simp only [Event.turn, held]
    rw [if_pos clears, if_pos clear]
    rfl
  · rw [if_neg fun clears => clear clears.1, if_neg clear]

end

namespace Fixed

variable {buffer next : Fixed} {session : Session} {event : Event} {capacity kept : Nat}
  {fed : List (List UInt8)}

/-- An accepted feed is stored after all other bytes. -/
theorem size_feed {data : List UInt8} (accepted : buffer.feed data = .ok next) :
    next.size = buffer.size + data.length := by
  rw [(feed_eq_ok_iff.mp accepted).2]
  exact Tape.size_append data buffer.tape

/-- An accepted feed takes exactly its bytes from those that were free. -/
theorem free_feed {data : List UInt8} (accepted : buffer.feed data = .ok next) :
    next.free + data.length = buffer.free := by
  have stored := size_feed accepted
  obtain ⟨admitted, rfl⟩ := feed_eq_ok_iff.mp accepted
  unfold Admits at admitted
  rw [free, free, stored]
  dsimp only
  omega

/-- Nothing that a buffer of fixed capacity undergoes changes its capacity. -/
theorem Undergoes.capacity_eq (undergoes : buffer.Undergoes session event next) :
    next.capacity = buffer.capacity := by
  cases undergoes with
  | feeds accepted => rw [(feed_eq_ok_iff.mp accepted).2]
  | _ => rfl

/-- A buffer stores as many bytes as were kept from the start, and those of the feeds accepted
since. -/
structure Stocked (capacity kept : Nat) (fed : List (List UInt8)) (buffer : Fixed) : Prop where
  /-- The capacity is the one that the buffer was made with. -/
  capacity_eq : buffer.capacity = capacity
  /-- Those bytes are stored, and no others. -/
  size_eq : buffer.size = kept + fed.flatten.length
  /-- No more was kept than there is capacity. -/
  kept_le : kept ≤ capacity
  /-- A feed leaves the buffer short of its capacity. -/
  short : fed ≠ [] → buffer.size < capacity

/-- An event leaves a buffer with the bytes kept and the feeds accepted, unless it is cleared. -/
theorem Stocked.undergoes (stocked : buffer.Stocked capacity kept fed)
    (held : session.buffer = .fixed buffer) (undergoes : buffer.Undergoes session event next) :
    next.Stocked capacity (if event = .owner .clear then 0 else kept)
      (if event = .owner .clear then [] else fed ++ event.payloads session) := by
  have capacity_eq := undergoes.capacity_eq.trans stocked.capacity_eq
  cases undergoes with
  | clears => exact ⟨capacity_eq, rfl, Nat.zero_le _, fun some => absurd rfl some⟩
  | @feeds data _ accepted =>
    have admitted := (feed_eq_ok_iff.mp accepted).1
    have stored := size_feed accepted
    have payloads : (Event.owner (.feed data)).payloads session = [data] := by
      rw [Event.payloads, Command.payloads_feed,
        if_pos ((Command.accepts_feed_iff held data).mpr admitted)]
    rw [if_neg nofun, if_neg nofun, payloads]
    refine ⟨capacity_eq, ?_, stocked.kept_le, fun _ => ?_⟩
    · rw [stored, stocked.size_eq, List.flatten_append, List.flatten_singleton, List.length_append,
        Nat.add_assoc]
    · rw [stored, ← stocked.capacity_eq]
      exact admitted
  | keeps window other nothing =>
    rw [if_neg other, if_neg other, nothing, List.append_nil]
    exact ⟨capacity_eq, stocked.size_eq, stocked.kept_le, stocked.short⟩

/-- **Every timeline leaves a buffer with the bytes that it was made from, unless it was cleared,
and the feeds accepted since.** By induction on the timeline, with the ledger of what was accepted
before it. -/
theorem Stocked.after {events : List Event} {ledger : Ledger}
    (stocked : buffer.Stocked capacity kept ledger.stored) (held : session.buffer = .fixed buffer) :
    ∃ last, (session.after events).buffer = .fixed last ∧
      last.Stocked capacity (if .owner .clear ∈ events then 0 else kept)
        (ledger.after events session).stored := by
  induction events generalizing session buffer ledger kept with
  | nil => exact ⟨buffer, held, stocked⟩
  | cons event later ih =>
    obtain ⟨next, holds, undergoes⟩ := event.apply_undergoes held
    have stocked_next := stocked.undergoes held undergoes
    rw [← Ledger.stored_enter held event ledger] at stocked_next
    obtain ⟨last, reached, stocked_last⟩ := ih stocked_next holds
    refine ⟨last, reached, ?_⟩
    have kept_eq : (if Event.owner .clear ∈ event :: later then 0 else kept) =
        if Event.owner .clear ∈ later then 0 else if event = .owner .clear then 0 else kept := by
      simp only [List.mem_cons, eq_comm (a := Event.owner .clear)]
      split_ifs <;> tauto
    rw [kept_eq]
    exact stocked_last

/-- A buffer is as full as its capacity only when no feed was accepted and what was kept fills it.
-/
theorem Stocked.of_full (stocked : buffer.Stocked capacity kept fed)
    (full : buffer.size = capacity) : fed = [] ∧ kept = capacity := by
  have none : fed = [] := by
    refine Classical.byContradiction fun some => ?_
    exact Nat.ne_of_lt (stocked.short some) full
  have size := stocked.size_eq
  rw [none] at size
  exact ⟨none, size.symm.trans full⟩

/-- The feeds accepted never come to the capacity, where there is any. -/
theorem Stocked.length_fed (stocked : buffer.Stocked capacity kept fed) :
    fed.flatten.length < capacity ∨ fed = [] ∧ capacity = 0 := by
  by_cases none : fed = []
  · subst none
    rcases Nat.eq_zero_or_pos capacity with empty | room
    · exact .inr ⟨rfl, empty⟩
    · exact .inl room
  · have size := stocked.size_eq
    have short := stocked.short none
    exact .inl (by omega)

end Fixed

namespace Session

variable {session : Session}

/-- A session with a buffer of fixed capacity, after events since it was made, with the feeds
accepted since it was last cleared. -/
structure Rationed (made : Fixed) (events : List Event) (fed : List (List UInt8)) (buffer : Fixed)
    (session : Session) : Prop where
  /-- The session reads this buffer. -/
  held : session.buffer = .fixed buffer
  /-- The capacity is the one that the buffer was made with. -/
  capacity_eq : buffer.capacity = made.capacity
  /-- What is stored was fed since the last clearing, or was there from the start and never cleared.
  -/
  size_eq : buffer.size = (if .owner .clear ∈ events then 0 else made.size) + fed.flatten.length
  /-- A feed is accepted exactly when it leaves the buffer short of its capacity. -/
  accepts : ∀ data, ((Command.feed data).perform session).reply.accepts = true ↔
    buffer.size + data.length < made.capacity
  /-- As long as the buffer is not full that is when the feed fits the free bytes. -/
  fits : buffer.size < made.capacity → ∀ data,
    (((Command.feed data).perform session).reply.accepts = true ↔ data.length ≤ buffer.free)
  /-- An accepted feed takes exactly its bytes from those that were free. -/
  lowers : ∀ data, ((Command.feed data).perform session).reply.accepts = true →
    ∃ next, ((Command.feed data).perform session).session.buffer = .fixed next ∧
      next.free + data.length = buffer.free
  /-- A refused feed says that there is no room, and changes nothing. -/
  refuses : ∀ data, ((Command.feed data).perform session).reply.accepts = false →
    ((Command.feed data).perform session).reply = .answer (.fault .noRoom) ∧
      ((Command.feed data).perform session).session = session
  /-- A full buffer was made so, and neither fed nor cleared since, unless it has no capacity. It
  refuses every feed, also one of nothing. -/
  full : buffer.size = made.capacity →
    (fed = [] ∧ (made.size = made.capacity ∧ .owner .clear ∉ events ∨ made.capacity = 0)) ∧
      ∀ data, ((Command.feed data).perform session).reply = .answer (.fault .noRoom)
  /-- Whatever is neither a feed nor a clearing leaves as many bytes free. -/
  keeps : ∀ event : Event, event ≠ .owner .clear → (∀ data, event ≠ .owner (.feed data)) →
    ∃ next, (event.apply session).buffer = .fixed next ∧ next.free = buffer.free
  /-- Clearing frees all but one byte. -/
  clears : ∃ next, (Command.clear.perform session).session.buffer = .fixed next ∧
    next.free = made.capacity - 1
  /-- The feeds accepted since the last clearing never come to the capacity. Without any capacity
  none is accepted. -/
  total : fed.flatten.length < made.capacity ∨ fed = [] ∧ made.capacity = 0

/-- A session whose buffer stores what was kept and fed is rationed so. -/
theorem rationed_of_stocked {made buffer : Fixed} {events : List Event} {fed : List (List UInt8)}
    (held : session.buffer = .fixed buffer)
    (stocked : buffer.Stocked made.capacity (if .owner .clear ∈ events then 0 else made.size) fed) :
    session.Rationed made events fed buffer := by
  have capacity_eq := stocked.capacity_eq
  have accepts : ∀ data, ((Command.feed data).perform session).reply.accepts = true ↔
      buffer.size + data.length < made.capacity := by
    intro data
    rw [Command.accepts_feed_iff held, Fixed.Admits, capacity_eq]
  have refuses : ∀ data, ((Command.feed data).perform session).reply.accepts = false →
      ((Command.feed data).perform session).reply = .answer (.fault .noRoom) ∧
        ((Command.feed data).perform session).session = session := by
    intro data refused
    cases fed : buffer.feed data with
    | ok next =>
      rw [Command.perform_feed_of_ok held fed] at refused
      cases refused
    | error fault =>
      rw [Command.perform_feed_of_error held fed]
      exact ⟨rfl, rfl⟩
  refine ⟨held, capacity_eq, stocked.size_eq, accepts, ?fits, ?lowers, refuses, ?full, ?keeps,
    ?clears, stocked.length_fed⟩
  case fits =>
    intro room data
    rw [Command.accepts_feed_iff held]
    exact Fixed.admits_iff_le_free (capacity_eq.symm ▸ room)
  case lowers =>
    intro data accepted
    have admitted := (Command.accepts_feed_iff held data).mp accepted
    have fed := Fixed.feed_eq_ok_iff.mpr ⟨admitted, rfl⟩
    rw [Command.perform_feed_of_ok held fed]
    exact ⟨_, rfl, Fixed.free_feed fed⟩
  case full =>
    intro full
    obtain ⟨none, kept⟩ := stocked.of_full full
    refine ⟨⟨none, ?_⟩, fun data => (refuses data ?_).1⟩
    · by_cases cleared : .owner .clear ∈ events
      · rw [if_pos cleared] at kept
        exact .inr kept.symm
      · rw [if_neg cleared] at kept
        exact .inl ⟨kept, cleared⟩
    · rw [← Bool.not_eq_true, accepts, full]
      omega
  case keeps =>
    intro event other unfed
    obtain ⟨next, reached, undergoes⟩ := event.apply_undergoes held
    cases undergoes with
    | clears => exact absurd rfl other
    | @feeds data => exact absurd rfl (unfed data)
    | keeps => exact ⟨_, reached, rfl⟩
  case clears =>
    obtain ⟨next, reached, undergoes⟩ := Command.clear.perform_undergoes held
    cases undergoes with
    | clears => exact ⟨_, reached, congrArg (· - 1) capacity_eq⟩
    | keeps window other => exact absurd rfl other

/-- **A buffer of fixed capacity admits exactly what leaves it short of its capacity, at every
moment of every run.** It is made from bytes exactly when they keep to the capacity, and may so be
full from the start. From then on, whatever happens, feeds are accepted and lower the free bytes as
`Rationed` says, nothing else but a clearing changes how many there are, and what feeds are accepted
between clearings never comes to the capacity. -/
theorem after_rationed {made : Fixed} {payloads : List (List UInt8)}
    (owned : (Buffer.fixed made).Owned payloads) (events : List Event) :
    let begun := ofBuffer (.fixed made)
    let fed := ((Ledger.opening []).after events begun).stored
    (∀ capacity data, (∃ built, Fixed.ofBytes capacity data = .ok built) ↔
        data.length ≤ capacity) ∧
      ∃ buffer, (begun.after events).Rationed made events fed buffer := by
  intro begun fed
  constructor
  · intro capacity data
    simp only [Fixed.ofBytes_eq_ok_iff, exists_and_left, exists_eq, and_true]
  · have start : made.Stocked made.capacity made.size (Ledger.opening []).stored :=
      ⟨rfl, rfl, owned.new.sound.size_le, fun some => absurd rfl some⟩
    have begun_held : begun.buffer = .fixed made := rfl
    obtain ⟨buffer, held, stocked⟩ : ∃ buffer, (begun.after events).buffer = .fixed buffer ∧ _ :=
      start.after begun_held
    exact ⟨buffer, rationed_of_stocked held stocked⟩

/-- A buffer made full of two bytes refuses a feed of nothing, is read and reset under a guard that
undoes it, is cleared, takes one byte, and refuses another. -/
theorem after_rationed_made_full :
    let made : Fixed := ⟨.ofBytes [97, 98], 2⟩
    let events : List Event :=
      [.owner (.feed []), .opened, .reader (.advance 1), .reader .reset, .closed .drop,
        .owner .clear, .owner (.feed [99]), .owner (.feed [100])]
    let begun := ofBuffer (.fixed made)
    let fed := ((Ledger.opening []).after events begun).stored
    fed = [[99]] ∧ ∃ buffer, (begun.after events).Rationed made events fed buffer := by
  intro made events begun fed
  have owned : (Buffer.fixed made).Owned [[97, 98]] :=
    @Buffer.Owned.fixedOf 2 [97, 98] _ (by decide) rfl
  exact ⟨by decide +kernel, (after_rationed owned events).2⟩

end Session

end WireScan
