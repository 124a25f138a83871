import Mathlib.Algebra.Ring.Nat
import Mathlib.Order.Bounds.Basic
import WireScan.Proofs.Ledger
import WireScan.Proofs.Views

/-!
# How far a store has grown

The capacity of a growing buffer is a function of its history, and of little of it: of the room it
began with, its limit, and the most bytes that it ever stored. As long as the first room was enough
it is that room; from then on it is the least size that holds as many bytes among those that
doubling the first room comes to (`Growing.Fitted`). Growing on from where an earlier growth ended
comes to no other size than growing from the start (`Growing.Fitted.grow`), so it does not matter in
how many writes the bytes arrived (`Session.after_capacity`).
-/
namespace WireScan

namespace Growing

/-! ## Doubling -/

/-- The sizes that doubling the first room comes to, cut off at the limit, and that are enough. -/
def Doublings (first limit enough : Nat) : Set Nat :=
  {capacity | enough ≤ capacity ∧ ∃ rounds, capacity = min (max first 1 * 2 ^ rounds) limit}

/-- The capacity of a store that began with some room and never stored more than a peak. -/
structure Fitted (first limit peak capacity : Nat) : Prop where
  /-- The first room stays as long as it is enough. -/
  kept : peak ≤ first → capacity = first
  /-- Where it is not, the store has the least size that is enough. -/
  least : first < peak → IsLeast (Doublings first limit peak) capacity

/-- More rounds of doubling come to no less. -/
theorem doublings_mono (first limit : Nat) {fewer more : Nat} (rounds : fewer ≤ more) :
    min (first * 2 ^ fewer) limit ≤ min (first * 2 ^ more) limit := by
  have powers := Nat.mul_le_mul_left first (Nat.pow_le_pow_right Nat.two_pos rounds)
  omega

/-- A round of growth is one more doubling. -/
theorem widen_doublings {limit : Nat} (index : limit ≤ Index.largest) (first rounds : Nat) :
    widen limit (min (first * 2 ^ rounds) limit) = min (first * 2 ^ (rounds + 1)) limit := by
  rw [widen_eq index, Nat.pow_succ, ← Nat.mul_assoc]
  omega

/-- Growth from a size that is not enough, after smaller ones that were not, ends with the least
that is. -/
theorem fit_isLeast {first limit needed : Nat} (index : limit ≤ Index.largest)
    (within : needed ≤ limit) (rounds : Nat)
    (short : ∀ fewer < rounds, min (max first 1 * 2 ^ fewer) limit < needed) :
    IsLeast (Doublings first limit needed)
      (fit limit needed (min (max first 1 * 2 ^ rounds) limit)) := by
  generalize start : min (max first 1 * 2 ^ rounds) limit = capacity
  fun_induction fit limit needed capacity generalizing rounds with
  | case1 capacity more ih =>
    refine ih (rounds + 1) (fun fewer below => ?_) (start ▸ widen_doublings index _ rounds).symm
    have reached := doublings_mono (max first 1) limit (Nat.le_of_lt_succ below)
    omega
  | case2 capacity stuck =>
    have positive : 0 < max first 1 * 2 ^ rounds :=
      Nat.mul_pos (by omega) (Nat.two_pow_pos rounds)
    have enough : needed ≤ capacity := by
      refine Nat.le_of_not_lt fun lacking => stuck ⟨lacking, ?_⟩
      exact lt_widen index (by omega) (by omega)
    refine ⟨⟨enough, rounds, start.symm⟩, ?_⟩
    rintro other ⟨fits, more, rfl⟩
    have later : rounds ≤ more := Nat.le_of_not_lt fun earlier =>
      Nat.not_lt.mpr fits (short more earlier)
    exact start ▸ doublings_mono _ _ later

namespace Fitted

variable {first limit peak capacity : Nat}

/-- A store that holds nothing has its first room. -/
theorem start (first limit : Nat) : Fitted first limit 0 first :=
  ⟨fun _ => rfl, fun above => absurd above (Nat.not_lt_zero _)⟩

/-- The capacity is enough. -/
theorem peak_le (fitted : Fitted first limit peak capacity) : peak ≤ capacity := by
  by_cases enough : peak ≤ first
  · rw [fitted.kept enough]
    exact enough
  · exact (fitted.least (Nat.lt_of_not_le enough)).1.1

/-- There is one such capacity. -/
theorem unique (fitted : Fitted first limit peak capacity) {other : Nat}
    (also : Fitted first limit peak other) : capacity = other := by
  by_cases enough : peak ≤ first
  · rw [fitted.kept enough, also.kept enough]
  · have above := Nat.lt_of_not_le enough
    exact (fitted.least above).unique (also.least above)

/-- A higher peak for which there is room leaves the capacity as it is. -/
theorem room (fitted : Fitted first limit peak capacity) {higher : Nat} (grown : peak ≤ higher)
    (fits : higher ≤ capacity) : Fitted first limit higher capacity := by
  constructor
  · intro enough
    exact fitted.kept (Nat.le_trans grown enough)
  · intro above
    have passed : first < peak := by
      refine Nat.lt_of_not_le fun enough => ?_
      rw [fitted.kept enough] at fits
      exact Nat.not_lt.mpr fits above
    obtain ⟨⟨_, reached⟩, least⟩ := fitted.least passed
    refine ⟨⟨fits, reached⟩, ?_⟩
    rintro other ⟨enough, also⟩
    exact least ⟨Nat.le_trans grown enough, also⟩

/-- Where growth begins is what doubling the first room comes to, and what it came to before is not
enough. -/
theorem exists_rounds (fitted : Fitted first limit peak capacity) {needed : Nat}
    (begun : first ≤ limit) (lacking : capacity < needed) (within : needed ≤ limit) :
    ∃ rounds, max capacity 1 = min (max first 1 * 2 ^ rounds) limit ∧
      ∀ fewer < rounds, min (max first 1 * 2 ^ fewer) limit < needed := by
  by_cases enough : peak ≤ first
  · refine ⟨0, ?_, fun _ below => absurd below (Nat.not_lt_zero _)⟩
    rw [fitted.kept enough, Nat.pow_zero]
    omega
  · obtain ⟨⟨holds, rounds, reached⟩, _⟩ := fitted.least (Nat.lt_of_not_le enough)
    refine ⟨rounds, by omega, fun fewer below => ?_⟩
    have smaller := doublings_mono (max first 1) limit (Nat.le_of_lt below)
    omega

/-- **Growth goes on where it ended,** and comes to what growing from the first room would. -/
theorem grow (fitted : Fitted first limit peak capacity) {needed : Nat}
    (index : limit ≤ Index.largest) (begun : first ≤ limit) (lacking : capacity < needed)
    (within : needed ≤ limit) :
    Fitted first limit needed (fit limit needed (max capacity 1)) := by
  obtain ⟨rounds, from_first, short⟩ := fitted.exists_rounds begun lacking within
  have least : IsLeast (Doublings first limit needed) _ := fit_isLeast index within rounds short
  rw [← from_first] at least
  refine ⟨fun enough => ?_, fun _ => least⟩
  -- The first room was enough before; it would have been kept, and would still be enough.
  have holds := fitted.peak_le
  have kept := fitted.kept (by omega)
  omega

end Fitted

/-! ## Writes -/

/-- What is stored keeps to a peak, and the capacity is what a store comes to with that peak. -/
structure Fits (first peak : Nat) (buffer : Growing) : Prop where
  /-- No more is stored than the peak. -/
  size_le : buffer.size ≤ peak
  /-- The capacity is fitted to the peak. -/
  fitted : Fitted first buffer.limit peak buffer.capacity

/-- Writes that are accepted, one after the other. -/
inductive Writes : Growing → Growing → Prop
  /-- No write. -/
  | none (buffer : Growing) : Writes buffer buffer
  /-- A write that is accepted, and those after it. -/
  | write {buffer next last : Growing} {data : List UInt8} (accepted : buffer.write data = .ok next)
    (later : Writes next last) : Writes buffer last

/-- What an event can make of a growing buffer. -/
inductive Becomes (buffer : Growing) : Growing → Prop
  /-- Nothing but the window changes. -/
  | moves (window : Window) : Becomes buffer { buffer with tape := { buffer.tape with window } }
  /-- It is cleared. -/
  | clears : Becomes buffer buffer.clear
  /-- Bytes are written. -/
  | writes {next : Growing} (written : buffer.Writes next) : Becomes buffer next

/-- As many bytes are stored after a write as before it and in the data. -/
theorem size_write {buffer next : Growing} {data : List UInt8}
    (accepted : buffer.write data = .ok next) : next.size = buffer.size + data.length := by
  rw [size, write_tape accepted, Tape.size_append]
  rfl

/-- The parts of a text that are accepted are writes. -/
theorem writes_writeParts (parts : List String) (buffer : Growing) :
    buffer.Writes (buffer.writeParts parts).buffer := by
  induction parts generalizing buffer with
  | nil => exact .none buffer
  | cons part rest ih =>
    rw [writeParts]
    cases written : buffer.write (Utf8.encode part) with
    | error fault => exact .none buffer
    | ok next => exact .write written (ih next)

namespace Writes

variable {buffer next : Growing}

/-- Writes after writes are writes. -/
theorem trans {last : Growing} (written : buffer.Writes next) (later : next.Writes last) :
    buffer.Writes last := by
  induction written with
  | none => exact later
  | write accepted _ ih => exact .write accepted (ih later)

/-- Writes leave the limit. -/
theorem limit_eq (written : buffer.Writes next) : next.limit = buffer.limit := by
  induction written with
  | none => rfl
  | write accepted _ ih => exact ih.trans (write_limit accepted)

/-- Writes take nothing away. -/
theorem size_le (written : buffer.Writes next) : buffer.size ≤ next.size := by
  induction written with
  | none => exact Nat.le_refl _
  | write accepted _ ih =>
    rw [size_write accepted] at ih
    exact Nat.le_of_add_right_le ih

/-- Writes change nothing of the window but where it stops. -/
theorem window_eq (written : buffer.Writes next) :
    next.tape.window = { buffer.tape.window with stop := next.tape.window.stop } := by
  induction written with
  | none => rfl
  | write accepted _ ih =>
    rw [ih, write_tape accepted]
    rfl

/-- A window that stops where the bytes end goes on to do so. -/
theorem stops (written : buffer.Writes next) (whole : buffer.tape.window.stop = buffer.size) :
    next.tape.window.stop = next.size := by
  induction written with
  | none => exact whole
  | write accepted _ ih =>
    refine ih ?_
    rw [size, write_tape accepted]
    rfl

end Writes

/-- A write that is accepted keeps the capacity fitted. -/
theorem Fits.write {first peak : Nat} {buffer next : Growing} {data : List UInt8}
    (fits : buffer.Fits first peak) (sound : buffer.Sound) (begun : first ≤ buffer.limit)
    (accepted : buffer.write data = .ok next) : next.Fits first (max peak next.size) := by
  refine ⟨Nat.le_max_right _ _, ?_⟩
  have stored := size_write accepted
  have holds := fits.fitted.peak_le
  rw [stored]
  unfold Growing.write admission at accepted
  dsimp only at accepted
  by_cases roomy : buffer.size + data.length ≤ buffer.capacity
  · rw [if_pos roomy] at accepted
    cases accepted
    exact fits.fitted.room (Nat.le_max_left _ _) (Nat.max_le.mpr ⟨holds, roomy⟩)
  · by_cases refused : buffer.limit < buffer.size + data.length
    · rw [if_neg roomy, if_pos refused] at accepted
      cases accepted
    · rw [if_neg roomy, if_neg refused] at accepted
      cases accepted
      have lacking := Nat.lt_of_not_le roomy
      have higher : max peak (buffer.size + data.length) = buffer.size + data.length := by omega
      rw [higher]
      exact fits.fitted.grow sound.indexed begun lacking (Nat.le_of_not_lt refused)

/-- Any number of writes keep the capacity fitted. -/
theorem Writes.fits {first peak : Nat} {buffer next : Growing} (written : buffer.Writes next)
    (fits : buffer.Fits first peak) (sound : buffer.Sound) (begun : first ≤ buffer.limit) :
    next.Fits first (max peak next.size) := by
  induction written generalizing peak with
  | none =>
    rw [Nat.max_eq_left fits.size_le]
    exact fits
  | write accepted later ih =>
    have limit := write_limit accepted
    have fitted := ih (fits.write sound begun accepted) (sound.write accepted) (limit ▸ begun)
    have grown := later.size_le
    rw [Nat.max_assoc, Nat.max_eq_right grown] at fitted
    exact fitted

/-- Whatever an event makes of a growing buffer, its limit stays and its capacity is fitted. -/
theorem Becomes.fits {first peak : Nat} {buffer next : Growing} (becomes : buffer.Becomes next)
    (fits : buffer.Fits first peak) (sound : buffer.Sound) (begun : first ≤ buffer.limit) :
    next.limit = buffer.limit ∧ next.Fits first (max peak next.size) := by
  cases becomes with
  | moves window =>
    have same : max peak buffer.size = peak := Nat.max_eq_left fits.size_le
    exact ⟨rfl, Nat.le_max_right _ _, same.symm ▸ fits.fitted⟩
  | clears =>
    have same : max peak 0 = peak := Nat.max_zero _
    exact ⟨rfl, Nat.zero_le _, same.symm ▸ fits.fitted⟩
  | writes written => exact ⟨written.limit_eq, written.fits fits sound begun⟩

end Growing

namespace Session

variable {session next : Session} {buffer : Growing}

/-- What keeps the store changes nothing of a growing buffer but its window. -/
theorem KeepsStore.becomes (kept : session.KeepsStore next)
    (held : session.buffer = .growing buffer) :
    ∃ changed, next.buffer = .growing changed ∧ buffer.Becomes changed := by
  obtain ⟨window, moved⟩ := kept
  rw [tape, held] at moved
  exact ⟨_, moved, .moves window⟩

end Session

namespace Command

variable {session : Session} {buffer : Growing}

/-- What adds bytes to a growing buffer writes what it accepts, and changes nothing else. -/
theorem Adds.writes {command : Command} (adds : command.Adds)
    (held : session.buffer = .growing buffer) :
    ∃ next, (command.perform session).session = { session with buffer := .growing next } ∧
      buffer.Writes next := by
  have unchanged : ∃ next, session = { session with buffer := .growing next } ∧
      buffer.Writes next := ⟨buffer, by rw [← held], .none buffer⟩
  have wrote : ∀ data reply refusal, ∃ next,
      (session.writing buffer data reply refusal).session =
        { session with buffer := .growing next } ∧ buffer.Writes next := by
    intro data reply refusal
    unfold Session.writing
    dsimp only
    split <;> rename_i written
    · exact ⟨_, rfl, .write written (.none _)⟩
    · exact unchanged
  obtain ⟨data, offered⟩ | ⟨parts, rfl⟩ := adds
  · cases command with
    | feed =>
      simp only [perform, held]
      exact unchanged
    | sendAll =>
      simp only [perform, held]
      split
      · exact unchanged
      · exact wrote _ _ _
    | write | writeOne | send =>
      simp only [perform, held]
      exact wrote _ _ _
    | _ => cases offered
  · simp only [perform, held]
    exact ⟨_, rfl, Growing.writes_writeParts parts buffer⟩

/-- What a command makes of a growing buffer. -/
theorem perform_becomes (command : Command) (held : session.buffer = .growing buffer) :
    ∃ changed, (command.perform session).session.buffer = .growing changed ∧
      buffer.Becomes changed := by
  have unchanged : ∃ changed, session.buffer = .growing changed ∧ buffer.Becomes changed :=
    ⟨buffer, held, .writes (.none buffer)⟩
  have added : command.Adds → ∃ changed,
      (command.perform session).session.buffer = .growing changed ∧ buffer.Becomes changed := by
    intro adds
    obtain ⟨next, same, written⟩ := adds.writes held
    exact ⟨next, congrArg Session.buffer same, .writes written⟩
  cases command with
  | act action => exact (action.perform_move session).keepsStore.becomes held
  | read skipped script => exact (read_keepsStore skipped script session).becomes held
  | take =>
    simp only [perform]
    unfold Tape.take?
    cases session.tape.peek? with
    | none => exact unchanged
    | some byte => exact (Session.KeepsStore.of_window session _).becomes held
  | place window => exact (Session.KeepsStore.of_window session window).becomes held
  | inspect => exact unchanged
  | flush =>
    simp only [perform, held]
    exact unchanged
  | clear =>
    simp only [perform, held]
    exact ⟨_, rfl, .clears⟩
  | format parts => exact added (.inr ⟨parts, rfl⟩)
  | feed | write | writeOne | send | sendAll => exact added (.inl ⟨_, rfl⟩)

end Command

/-- What an event makes of a growing buffer. -/
theorem Event.apply_becomes (event : Event) {session : Session} {buffer : Growing}
    (held : session.buffer = .growing buffer) :
    ∃ changed, (event.apply session).buffer = .growing changed ∧ buffer.Becomes changed := by
  cases event with
  | owner command => exact command.perform_becomes held
  | reader action => exact (action.perform_move session).keepsStore.becomes held
  | opened => exact ⟨buffer, held, .writes (.none buffer)⟩
  | closed ending => exact (session.closeGuard_move ending).keepsStore.becomes held

/-! ## The peak of a timeline -/

namespace Session

variable {session : Session} {buffer : Growing}

/-- How many bytes are stored at the moments of a timeline. -/
def sizes (events : List Event) (session : Session) : Set Nat :=
  {size | ∃ before, before <+: events ∧ (session.after before).tape.bytes.size = size}

/-- The peak of a timeline is the size at its start or the peak after its first event. -/
theorem isGreatest_sizes_cons {event : Event} {later : List Event} {peak : Nat}
    (greatest : IsGreatest (sizes later (event.apply session)) peak) :
    IsGreatest (session.sizes (event :: later)) (max session.tape.bytes.size peak) := by
  obtain ⟨⟨before, first, reached⟩, bound⟩ := greatest
  constructor
  · by_cases begun : peak ≤ session.tape.bytes.size
    · rw [Nat.max_eq_left begun]
      exact ⟨[], List.nil_prefix, rfl⟩
    · rw [Nat.max_eq_right (Nat.le_of_not_le begun)]
      exact ⟨event :: before, List.cons_prefix_cons.mpr ⟨rfl, first⟩, reached⟩
  · rintro size ⟨moment, earlier, rfl⟩
    cases moment with
    | nil => exact Nat.le_max_left _ _
    | cons other moment =>
      obtain ⟨rfl, shorter⟩ := List.cons_prefix_cons.mp earlier
      exact Nat.le_trans (bound ⟨moment, shorter, rfl⟩) (Nat.le_max_right _ _)

/-- A timeline keeps the limit of a growing buffer, and its capacity fitted to the peak. By
induction on the timeline, with the peak of what came before it. -/
theorem after_fits {first earlier : Nat} {events : List Event}
    (held : session.buffer = .growing buffer) (fits : buffer.Fits first earlier)
    (sound : session.Sound) (begun : first ≤ buffer.limit) (allowed : session.Admits events) :
    ∃ last peak, (session.after events).buffer = .growing last ∧ last.limit = buffer.limit ∧
      IsGreatest (session.sizes events) peak ∧ last.Fits first (max earlier peak) := by
  induction events generalizing session buffer earlier with
  | nil =>
    refine ⟨buffer, buffer.size, held, rfl, ⟨⟨[], List.nil_prefix, ?_⟩, ?_⟩, ?_⟩
    · rw [after, tape, held]
      rfl
    · rintro size ⟨moment, none, rfl⟩
      rw [List.prefix_nil.mp none, after, tape, held]
      exact Nat.le_refl _
    · rw [Nat.max_eq_left fits.size_le]
      exact fits
  | cons event later ih =>
    have sound_next := sound.change (Event.apply_change allowed.1)
    obtain ⟨next, holds, becomes⟩ := event.apply_becomes held
    obtain ⟨limit, fits_next⟩ := becomes.fits fits (sound.growing held) begun
    obtain ⟨last, peak, reached, same, greatest, fitted⟩ :=
      ih holds fits_next sound_next (limit ▸ begun) allowed.2
    refine ⟨last, _, reached, same.trans limit, isGreatest_sizes_cons greatest, ?_⟩
    -- What was stored at the start keeps to the earlier peak; what is stored next is in the later
    -- one.
    have size : session.tape.bytes.size = buffer.size := by
      rw [tape, held]
      rfl
    have started : (event.apply session).tape.bytes.size = next.size := by
      rw [tape, holds]
      rfl
    have later_peak : next.size ≤ peak := greatest.2 ⟨[], List.nil_prefix, started⟩
    have bounded := fits.size_le
    have peaks : max earlier (max session.tape.bytes.size peak) =
        max (max earlier next.size) peak := by
      omega
    rw [peaks]
    exact fitted

end Session

/-! ## Admission -/

namespace Growing

variable {buffer : Growing}

/-- A sound growing buffer accepts a write exactly when the bytes keep to its limit. -/
theorem Sound.write_iff (sound : buffer.Sound) (data : List UInt8) :
    (∃ next, buffer.write data = .ok next) ↔ buffer.size + data.length ≤ buffer.limit := by
  constructor
  · rintro ⟨next, accepted⟩
    refine Nat.le_of_not_lt fun exceeds => ?_
    rw [sound.write_of_exceeds exceeds] at accepted
    cases accepted
  · intro fits
    obtain ⟨next, accepted, _⟩ := sound.write_of_fits fits
    exact ⟨next, accepted⟩

/-- A sound growing buffer accepts all parts of a text exactly when together they keep to its
limit. -/
theorem Sound.complete_iff (sound : buffer.Sound) (parts : List String) :
    (buffer.writeParts parts).complete = true ↔
      buffer.size + (parts.flatMap Utf8.encode).length ≤ buffer.limit := by
  induction parts generalizing buffer with
  | nil =>
    have within := Nat.le_trans sound.size_le sound.capacity_le
    exact ⟨fun _ => within, fun _ => rfl⟩
  | cons part rest ih =>
    have admitted := sound.write_iff (Utf8.encode part)
    rw [Growing.writeParts, List.flatMap_cons, List.length_append]
    cases written : buffer.write (Utf8.encode part) with
    | error fault =>
      rw [written] at admitted
      constructor
      · intro done
        cases done
      · intro fits
        obtain ⟨next, never⟩ := admitted.mpr (by omega)
        cases never
    | ok next =>
      have later := ih (sound.write written)
      rw [size_write written, write_limit written, Nat.add_assoc] at later
      exact later

end Growing

namespace Command

variable {session : Session} {buffer : Growing}

/-- The bytes that a command offers to a growing buffer, if it offers any. -/
def offers : Command → Option (List UInt8)
  | write data | send data | sendAll data => some data
  | writeOne byte => some [byte]
  | format parts => some (parts.flatMap Utf8.encode)
  | _ => none

/-- What a command offers is accepted exactly when it keeps to the limit. -/
theorem accepts_iff {command : Command} {data : List UInt8} (offered : command.offers = some data)
    (held : session.buffer = .growing buffer) (sound : buffer.Sound) :
    (command.perform session).reply.accepts = true ↔
      buffer.size + data.length ≤ buffer.limit := by
  have wrote : ∀ (data : List UInt8) (reply : Reply) (refusal : Fault → Reply),
      reply.accepts = true → (∀ fault, (refusal fault).accepts = false) →
        ((session.writing buffer data reply refusal).reply.accepts = true ↔
          buffer.size + data.length ≤ buffer.limit) := by
    intro data reply refusal taken refused
    rw [← sound.write_iff data]
    unfold Session.writing
    dsimp only
    split <;> rename_i written
    · exact ⟨fun _ => ⟨_, written⟩, fun _ => taken⟩
    · rw [refused, written]
      constructor
      · intro never
        cases never
      · rintro ⟨next, never⟩
        cases never
  cases command with
  | write | writeOne | send =>
    cases offered
    simp only [perform, held]
    exact wrote _ _ _ rfl fun _ => rfl
  | sendAll data =>
    cases offered
    simp only [perform, held]
    split
    · rename_i none
      rw [none]
      exact ⟨fun _ => Nat.le_trans sound.size_le sound.capacity_le, fun _ => rfl⟩
    · exact wrote _ _ _ rfl fun _ => rfl
  | format parts =>
    cases offered
    simp only [perform, held]
    rw [← sound.complete_iff parts]
    cases (buffer.writeParts parts).complete with
    | true => exact ⟨fun _ => rfl, fun _ => rfl⟩
    | false =>
      constructor <;>
        · intro never
          cases never
  | _ => cases offered

/-- What is offered as a whole and refused changes nothing. -/
theorem perform_of_refused {command : Command} {data : List UInt8}
    (offered : command.payload? = some data)
    (refused : (command.perform session).reply.accepts = false) :
    (command.perform session).session = session := by
  rcases perform_stores offered session with ⟨taken, _⟩ | ⟨_, same⟩
  · exact nomatch taken.symm.trans refused
  · exact same

/-! ## Splitting -/

/-- The payloads of commands in order that were accepted. -/
def accepted : List Command → Session → List (List UInt8)
  | [], _ => []
  | command :: later, session =>
    command.payloads session ++ accepted later (command.perform session).session

/-- Commands that add bytes write what they accept, one after the other, and change nothing else. -/
theorem after_adds {commands : List Command} (adds : ∀ command ∈ commands, command.Adds)
    (held : session.buffer = .growing buffer) (unguarded : session.guards = []) :
    ∃ last, session.after (commands.map .owner) = { session with buffer := .growing last } ∧
      buffer.Writes last ∧ last.tape.bytes.toList =
        buffer.tape.bytes.toList ++ (accepted commands session).flatten := by
  induction commands generalizing session buffer with
  | nil => exact ⟨buffer, by rw [← held]; rfl, .none buffer, (List.append_nil _).symm⟩
  | cons command later ih =>
    have this : command.Adds := adds command List.mem_cons_self
    have keeps : command ≠ .clear := by
      rintro rfl
      obtain ⟨data, offered⟩ | ⟨parts, same⟩ := this
      · cases offered
      · cases same
    have allowed : (Event.owner command).Allowed session := by
      cases command with
      | read => obtain ⟨data, offered⟩ | ⟨parts, same⟩ := this <;> contradiction
      | _ => exact unguarded
    have stored := toList_perform allowed keeps
    obtain ⟨next, same, written⟩ := this.writes held
    have bytes : next.tape.bytes.toList =
        buffer.tape.bytes.toList ++ (command.payloads session).flatten := by
      rw [same, Session.tape, Session.tape, held] at stored
      exact stored
    have rest : ∀ other ∈ later, other.Adds := fun other among =>
      adds other (List.mem_cons_of_mem _ among)
    have next_held : ({ session with buffer := .growing next } : Session).buffer =
        .growing next := rfl
    obtain ⟨last, reached, more, all⟩ := ih rest next_held unguarded
    refine ⟨last, ?_, written.trans more, ?_⟩
    · rw [List.map_cons, Session.after, Event.apply, same]
      exact reached
    · rw [all, bytes, accepted, same, List.flatten_append, List.append_assoc]

end Command

/-- Writes of the same bytes, from where the window stops where the bytes end, come to one growing
buffer. -/
theorem Growing.Writes.eq_of_bytes {first peak : Nat} {buffer left right : Growing}
    (written : buffer.Writes left) (also : buffer.Writes right) (fits : buffer.Fits first peak)
    (sound : buffer.Sound) (begun : first ≤ buffer.limit)
    (whole : buffer.tape.window.stop = buffer.size) (same : left.tape.bytes = right.tape.bytes) :
    left = right := by
  have limit : left.limit = right.limit := written.limit_eq.trans also.limit_eq.symm
  have size : left.size = right.size := congrArg Array.size same
  have window : left.tape.window = right.tape.window := by
    rw [written.window_eq, also.window_eq, written.stops whole, also.stops whole, size]
  have capacity : left.capacity = right.capacity := by
    have fitted := (written.fits fits sound begun).fitted
    rw [limit, size] at fitted
    exact fitted.unique (also.fits fits sound begun).fitted
  obtain ⟨⟨bytes, view⟩, room, most⟩ := left
  cases same
  cases window
  cases limit
  cases capacity
  rfl

namespace Session

/-! ## The capacity of a timeline -/

/-- A session with a growing buffer that began with some room and a limit and stored a peak. -/
structure Grown (room limit peak : Nat) (buffer : Growing) (session : Session) : Prop where
  /-- The session reads this growing buffer. -/
  held : session.buffer = .growing buffer
  /-- The limit is the one that it began with. -/
  limit_eq : buffer.limit = limit
  /-- The capacity keeps to the limit. -/
  capacity_le : buffer.capacity ≤ limit
  /-- The capacity is the first room or the least of its doublings, as the peak asks for. -/
  fitted : Growing.Fitted (min room limit) limit peak buffer.capacity
  /-- What is offered is accepted exactly when it keeps to the limit. -/
  admits : ∀ (command : Command) (data : List UInt8), command.offers = some data →
    ((command.perform session).reply.accepts = true ↔ buffer.size + data.length ≤ limit)
  /-- What is offered as a whole and refused changes nothing. -/
  refuses : ∀ (command : Command) (data : List UInt8), command.payload? = some data →
    (command.perform session).reply.accepts = false → (command.perform session).session = session

/-- The commands that add bytes come to one session when they had the same bytes accepted, however
these were split. -/
def Joins (session : Session) : Prop :=
  ∀ first second : List Command, (∀ command ∈ first, command.Adds) →
    (∀ command ∈ second, command.Adds) →
      (Command.accepted first session).flatten = (Command.accepted second session).flatten →
        session.after (first.map .owner) = session.after (second.map .owner)

/-- **The capacity is a function of the most bytes that were ever stored.** On every allowed
timeline from a new growing buffer, the capacity is the first room as long as that was enough for
the peak, and from then on the least of its doublings, cut off at the limit, that is enough;
whatever is offered is accepted exactly when it keeps to the limit, and refusals change nothing.
Where no window is placed and no guard is open, it does not matter in how many writes they
arrive. -/
theorem after_capacity {room limit : Nat} (indexed : limit ≤ Index.largest) {events : List Event}
    (allowed : (ofBuffer (.growing (.empty room limit))).Admits events) :
    let begun := ofBuffer (.growing (.empty room limit))
    let session := begun.after events
    (∃ buffer peak, IsGreatest (begun.sizes events) peak ∧ session.Grown room limit peak buffer) ∧
      ((∀ window, .owner (.place window) ∉ events) → session.guards = [] → session.Joins) := by
  intro begun session
  have owned : (Buffer.growing (.empty room limit)).Owned [] := .growing room limit indexed
  have sound_begun : begun.Sound := sound_ofBuffer owned.new
  have sound : session.Sound := sound_begun.after allowed
  have start : (Growing.empty room limit).Fits (min room limit) 0 :=
    ⟨Nat.le_refl _, .start _ _⟩
  have first_le : min room limit ≤ limit := Nat.min_le_right _ _
  obtain ⟨buffer, peak, held, limit_eq, greatest, fits⟩ :=
    after_fits rfl start sound_begun first_le allowed
  replace limit_eq : buffer.limit = limit := limit_eq
  rw [Nat.zero_max] at fits
  have sound_buffer : buffer.Sound := by
    have whole := sound.buffer
    rw [show session.buffer = _ from held] at whole
    exact whole
  refine ⟨⟨buffer, peak, greatest, held, limit_eq, ?_, ?_, ?_, ?_⟩, ?_⟩
  · rw [← limit_eq]
    exact sound_buffer.capacity_le
  · rw [← limit_eq]
    exact limit_eq ▸ fits.fitted
  · intro command data offered
    rw [← limit_eq]
    exact Command.accepts_iff offered held sound_buffer
  · intro command data offered refused
    exact Command.perform_of_refused offered refused
  · intro unplaced unguarded first second first_adds second_adds same
    obtain ⟨left, left_led, left_written, left_bytes⟩ :=
      Command.after_adds first_adds held unguarded
    obtain ⟨right, right_led, right_written, right_bytes⟩ :=
      Command.after_adds second_adds held unguarded
    have whole : buffer.tape.window.stop = buffer.size := by
      have ledger := owned.fits.after sound_begun allowed unplaced
      have stop := ledger.windows.now.stop
      change session.buffer.tape.window.stop = session.buffer.tape.bytes.size at stop
      rw [show session.buffer = _ from held] at stop
      exact stop
    have bytes : left.tape.bytes = right.tape.bytes := by
      rw [← Array.toList_inj, left_bytes, right_bytes, same]
    have one := left_written.eq_of_bytes right_written fits sound_buffer
      (limit_eq ▸ first_le) whole bytes
    rw [left_led, right_led, one]

/-- A buffer without room that may hold six bytes takes one and two more, refuses four, is cleared,
and takes five in two parts. Another byte comes alone after nothing, or before one that is
refused. -/
theorem after_capacity_refilled :
    let begun := ofBuffer (.growing (.empty 0 6))
    let events : List Event :=
      [.owner (.writeOne 97), .owner (.write [98, 99]), .owner (.write [1, 2, 3, 4]),
        .reader (.advance 2), .owner .clear, .owner (.format ["ab", "cde"])]
    let session := begun.after events
    let after_nothing : List Command := [.sendAll [], .write [120]]
    let before_refusal : List Command := [.writeOne 120, .send [9]]
    session.buffer = .growing ⟨⟨#[97, 98, 99, 100, 101], ⟨0, 0, 5, 1⟩⟩, 6, 6⟩ ∧
      (∃ buffer peak, IsGreatest (begun.sizes events) peak ∧ session.Grown 0 6 peak buffer) ∧
        session.after (after_nothing.map .owner) = session.after (before_refusal.map .owner) := by
  intro begun events session after_nothing before_refusal
  have allowed : begun.Admits events := by
    refine ⟨rfl, rfl, ?_, trivial, ?_, ?_, trivial⟩ <;> change Session.guards _ = [] <;>
      decide +kernel
  have unplaced : ∀ window, .owner (.place window) ∉ events := by simp [events]
  have ⟨grown, joins⟩ := after_capacity (by decide) allowed
  refine ⟨by decide +kernel, grown, ?_⟩
  refine joins unplaced (by decide +kernel) _ _ ?_ ?_ (by decide +kernel)
  · simp [after_nothing, Command.Adds, Command.payload?]
  · simp [before_refusal, Command.Adds, Command.payload?]

end Session

end WireScan
