import Mathlib.Control.Monad.Basic
import WireScan.Proofs.Timeline

/-!
# Marks of windows that are gone

A window is renewed when it is emptied or its buffer is cleared, and a guard that puts its window
back undoes every renewal since it was opened. The epoch of a window counts the renewals that stand
(`History.Fits.epoch`), not those that were made: after an undone renewal the next one gives the same
epoch again. A mark is refused by its epoch, the start of its window and the read position, so it is
refused after a renewal except where as many renewals were undone as stand since, the new window
starts in the same place and reading has come as far (`Moment.LooksLike`). Where it is not refused it
reads the bytes of the later window.
-/
namespace WireScan

/-- The renewals of a window, by number. -/
structure History where
  /-- How many renewals were made, each numbered by those before it. -/
  made : Nat
  /-- The renewals that stand, the latest first. -/
  standing : List Nat
  /-- The renewals that stood when the open guards were opened, the innermost guard first. -/
  saved : List (List Nat)
deriving DecidableEq, Repr

namespace History

/-- Nothing was renewed yet. -/
def start : History := ⟨0, [], []⟩

/-- The history after an event. -/
def turned (history : History) : Turn → History
  | .goesOn | .places => history
  | .renews => ⟨history.made + 1, history.made :: history.standing, history.saved⟩
  | .returns => { history with standing := history.saved.headD history.standing }
  | .opens => { history with saved := history.standing :: history.saved }
  | .closes false => { history with saved := history.saved.tail }
  | .closes true =>
    { history with standing := history.saved.headD history.standing, saved := history.saved.tail }

/-- The history after events in order. -/
def after : List Event → Session → History → History
  | [], _, history => history
  | event :: later, session, history =>
    after later (event.apply session) (history.turned (event.turn session))

/-- The renewals that stand now and were made after an earlier moment. -/
def renewedSince (now earlier : History) : List Nat := now.standing.filter (earlier.made ≤ ·)

/-- The renewals that stood at an earlier moment and were undone since. -/
def undoneSince (now earlier : History) : List Nat := earlier.standing.filter (· ∉ now.standing)

/-- The renewals that stand, and those that stood when the open guards were opened. -/
def stages (history : History) : List (List Nat) := history.standing :: history.saved

/-- Events may be counted in one after the other. -/
theorem after_append (first second : List Event) (session : Session) (history : History) :
    history.after (first ++ second) session =
      (history.after first session).after second (session.after first) := by
  induction first generalizing session history with
  | nil => rfl
  | cons event first ih => exact ih _ _

variable {history : History}

/-- What stood when the innermost guard was opened is a stage. -/
theorem headD_mem_stages (history : History) :
    history.saved.headD history.standing ∈ history.stages := by
  cases saved : history.saved with
  | nil => exact List.mem_cons_self
  | cons inner outer =>
    apply List.mem_cons_of_mem
    rw [saved]
    exact List.mem_cons_self

/-- After an event a stage is one that there was, or the renewals that stood with one more. -/
theorem mem_stages_turned {turn : Turn} {stage : List Nat}
    (among : stage ∈ (history.turned turn).stages) :
    stage ∈ history.stages ∨ turn = .renews ∧ stage = history.made :: history.standing := by
  have saved : ∀ stage ∈ history.saved, stage ∈ history.stages := fun _ =>
    List.mem_cons_of_mem history.standing
  cases turn with
  | goesOn => exact .inl among
  | places => exact .inl among
  | renews =>
    rcases List.mem_cons.mp among with rfl | among
    · exact .inr ⟨rfl, rfl⟩
    · exact .inl (saved stage among)
  | returns =>
    rcases List.mem_cons.mp among with rfl | among
    · exact .inl history.headD_mem_stages
    · exact .inl (saved stage among)
  | opens =>
    rcases List.mem_cons.mp among with rfl | among
    · exact .inl List.mem_cons_self
    · exact .inl among
  | closes returning =>
    cases returning with
    | false =>
      rcases List.mem_cons.mp among with rfl | among
      · exact .inl List.mem_cons_self
      · exact .inl (saved stage (List.mem_of_mem_tail among))
    | true =>
      rcases List.mem_cons.mp among with rfl | among
      · exact .inl history.headD_mem_stages
      · exact .inl (saved stage (List.mem_of_mem_tail among))

/-- No event takes a number back. -/
theorem made_le_turned (history : History) (turn : Turn) :
    history.made ≤ (history.turned turn).made := by
  cases turn with
  | renews => exact Nat.le_succ _
  | closes returning => cases returning <;> exact Nat.le_refl _
  | _ => exact Nat.le_refl _

/-! ## The order of renewals -/

/-- The stages are ends of one another, of numbers that fall from the last one made. -/
structure Ordered (history : History) : Prop where
  /-- What stood when a guard was opened is an end of what stood later. -/
  nested : history.stages.Pairwise fun inner outer => outer <:+ inner
  /-- The latest renewal stands first. -/
  falling : history.standing.Pairwise (· > ·)
  /-- Every renewal was made. -/
  below : ∀ number ∈ history.standing, number < history.made
  /-- No more renewals stand than were made. -/
  length_le : history.standing.length ≤ history.made

/-- At the start nothing stands. -/
theorem start_ordered : start.Ordered :=
  ⟨List.pairwise_singleton _ _, .nil, nofun, Nat.le_refl _⟩

/-- Every stage is an end of what stands. -/
theorem Ordered.suffix (ordered : history.Ordered) {stage : List Nat}
    (among : stage ∈ history.stages) : stage <:+ history.standing := by
  rcases List.mem_cons.mp among with rfl | among
  · exact List.suffix_refl _
  · exact List.rel_of_pairwise_cons ordered.nested among

/-- The stages stay nested when the innermost is taken twice. -/
theorem nested_twice {inner : List Nat} {outer : List (List Nat)}
    (nested : (inner :: outer).Pairwise fun inner outer => outer <:+ inner) :
    (inner :: inner :: outer).Pairwise fun inner outer => outer <:+ inner := by
  refine List.pairwise_cons.mpr ⟨fun stage among => ?_, nested⟩
  rcases List.mem_cons.mp among with rfl | among
  · exact List.suffix_refl _
  · exact List.rel_of_pairwise_cons nested among

/-- Every event keeps the stages nested. -/
theorem Ordered.nested_turned (ordered : history.Ordered) (turn : Turn) :
    (history.turned turn).stages.Pairwise fun inner outer => outer <:+ inner := by
  have nested := ordered.nested
  have saved := (List.pairwise_cons.mp nested).2
  cases turn with
  | goesOn => exact nested
  | places => exact nested
  | renews =>
    refine List.pairwise_cons.mpr ⟨fun stage among => ?_, saved⟩
    exact (ordered.suffix (List.mem_cons_of_mem _ among)).trans (List.suffix_cons _ _)
  | opens => exact nested_twice nested
  | returns =>
    unfold stages turned
    cases found : history.saved with
    | nil => exact List.pairwise_singleton _ _
    | cons inner outer =>
      rw [found] at saved
      exact nested_twice saved
  | closes returning =>
    unfold stages
    cases returning with
    | false =>
      refine List.Pairwise.sublist ?_ nested
      exact (List.tail_sublist _).cons_cons _
    | true =>
      unfold turned
      cases found : history.saved with
      | nil => exact List.pairwise_singleton _ _
      | cons inner outer =>
        rw [found] at saved
        exact saved

/-- After an event no more stands than before it but for a new renewal. -/
theorem Ordered.standing_turned (ordered : history.Ordered) (turn : Turn) :
    (history.turned turn).standing <:+ history.standing ∨
      turn = .renews ∧ (history.turned turn).standing = history.made :: history.standing := by
  have among : (history.turned turn).standing ∈ (history.turned turn).stages :=
    List.mem_cons_self
  rcases mem_stages_turned among with among | renewed
  · exact .inl (ordered.suffix among)
  · exact .inr renewed

/-- Every event keeps the order of renewals. -/
theorem Ordered.turned (ordered : history.Ordered) (turn : Turn) :
    (history.turned turn).Ordered := by
  have nested := ordered.nested_turned turn
  have made_le := history.made_le_turned turn
  rcases ordered.standing_turned turn with ended | ⟨rfl, -⟩
  · refine ⟨nested, ordered.falling.sublist ended.sublist, fun number among => ?_, ?_⟩
    · exact Nat.lt_of_lt_of_le (ordered.below number (ended.mem among)) made_le
    · exact Nat.le_trans ended.length_le (Nat.le_trans ordered.length_le made_le)
  · refine ⟨nested, List.pairwise_cons.mpr ⟨ordered.below, ordered.falling⟩, ?_, ?_⟩
    · intro number among
      rcases List.mem_cons.mp among with rfl | among
      · exact Nat.lt_succ_self _
      · exact Nat.lt_succ_of_lt (ordered.below number among)
    · exact Nat.succ_le_succ ordered.length_le

/-- Every timeline keeps the order of renewals. -/
theorem Ordered.after (ordered : history.Ordered) (events : List Event) (session : Session) :
    (history.after events session).Ordered := by
  induction events generalizing history session with
  | nil => exact ordered
  | cons event later ih => exact ih (ordered.turned _) _

/-! ## Two moments -/

/-- What stands later, or stood when a guard was opened, are renewals made since an earlier moment
and after them some of those that stood at that moment. -/
structure Follows (now earlier : History) : Prop where
  /-- No number was taken back. -/
  made_le : earlier.made ≤ now.made
  /-- Every stage has its parts. -/
  parts : ∀ stage ∈ now.stages, ∃ fresh kept,
    stage = fresh ++ kept ∧ kept <:+ earlier.standing ∧ ∀ number ∈ fresh, earlier.made ≤ number

/-- At the moment itself nothing was made since. -/
theorem Ordered.follows_self (ordered : history.Ordered) : history.Follows history :=
  ⟨Nat.le_refl _, fun stage among => ⟨[], stage, rfl, ordered.suffix among, nofun⟩⟩

/-- After an event the earlier moment is followed as before. -/
theorem Follows.turned {now earlier : History} (follows : now.Follows earlier) (turn : Turn) :
    (now.turned turn).Follows earlier := by
  refine ⟨Nat.le_trans follows.made_le (now.made_le_turned turn), fun stage among => ?_⟩
  rcases mem_stages_turned among with among | ⟨-, rfl⟩
  · exact follows.parts stage among
  · obtain ⟨fresh, kept, same, ended, later⟩ := follows.parts now.standing List.mem_cons_self
    refine ⟨now.made :: fresh, kept, by rw [same, List.cons_append], ended, fun number among => ?_⟩
    rcases List.mem_cons.mp among with rfl | among
    · exact follows.made_le
    · exact later number among

/-- After events the earlier moment is followed as before. -/
theorem Follows.after {now earlier : History} (follows : now.Follows earlier)
    (events : List Event) (session : Session) : (now.after events session).Follows earlier := by
  induction events generalizing now session with
  | nil => exact follows
  | cons event later ih => exact ih (follows.turned _) _

/-- What stood earlier and what stands now differ by the renewals undone and made since. -/
theorem Follows.split {now earlier : History} (follows : now.Follows earlier)
    (ordered : earlier.Ordered) :
    ∃ kept, now.standing = now.renewedSince earlier ++ kept ∧
      earlier.standing = now.undoneSince earlier ++ kept := by
  obtain ⟨fresh, kept, parts, ⟨gone, earlier_parts⟩, made⟩ :=
    follows.parts now.standing List.mem_cons_self
  have below := ordered.below
  have falling := ordered.falling
  rw [← earlier_parts] at below falling
  have renewed : now.renewedSince earlier = fresh := by
    have all : fresh.filter (earlier.made ≤ ·) = fresh :=
      List.filter_eq_self.mpr fun number among => decide_eq_true (made number among)
    have none : kept.filter (earlier.made ≤ ·) = [] := by
      refine List.filter_eq_nil_iff.mpr fun number among => ?_
      rw [decide_eq_true_iff]
      exact Nat.not_le.mpr (below number (List.mem_append_right gone among))
    rw [renewedSince, parts, List.filter_append, all, none, List.append_nil]
  have undone : now.undoneSince earlier = gone := by
    have all : gone.filter (· ∉ now.standing) = gone := by
      refine List.filter_eq_self.mpr fun number among => decide_eq_true ?_
      rw [parts]
      intro again
      rcases List.mem_append.mp again with later | same
      · have early := below number (List.mem_append_left kept among)
        exact Nat.not_le.mpr early (made number later)
      · exact Nat.lt_irrefl _ ((List.pairwise_append.mp falling).2.2 number among number same)
    have none : kept.filter (· ∉ now.standing) = [] := by
      refine List.filter_eq_nil_iff.mpr fun number among => ?_
      rw [decide_eq_true_iff, parts]
      exact fun absent => absent (List.mem_append_right fresh among)
    rw [undoneSince, ← earlier_parts, List.filter_append, all, none, List.append_nil]
  exact ⟨kept, by rw [renewed, parts], by rw [undone, earlier_parts]⟩

/-- As many renewals stand at both moments exactly when as many were undone as were made since. -/
theorem Follows.length_eq_iff {now earlier : History} (follows : now.Follows earlier)
    (ordered : earlier.Ordered) :
    now.standing.length = earlier.standing.length ↔
      (now.renewedSince earlier).length = (now.undoneSince earlier).length := by
  obtain ⟨kept, now_parts, earlier_parts⟩ := follows.split ordered
  have total := congrArg List.length now_parts
  have earlier_total := congrArg List.length earlier_parts
  rw [List.length_append] at total earlier_total
  omega

/-! ## Epochs -/

/-- The epochs of the window and of the windows that guards remember count the renewals that stood
there. -/
structure Fits (history : History) (session : Session) : Prop where
  /-- The epoch of the window counts what stands. -/
  epoch : session.window.epoch = UInt32.ofNat history.standing.length
  /-- The epochs of the remembered windows count what stood when they were found. -/
  saved : (session.guards.map fun guard => guard.saved.epoch) =
    history.saved.map fun stage => UInt32.ofNat stage.length

/-- The history of a session that begins to read a new buffer. -/
theorem start_fits {buffer : Buffer} (new : buffer.New) : start.Fits (Session.ofBuffer buffer) := by
  refine ⟨?_, rfl⟩
  cases new with
  | range indexed ranged =>
    obtain ⟨_, rfl⟩ := Tape.ofRange_eq_ok_iff.mp ranged
    rfl
  | fixedOf indexed fits =>
    obtain ⟨_, rfl⟩ := Fixed.ofBytes_eq_ok_iff.mp fits
    rfl
  | _ => rfl

variable {session : Session}

/-- One more renewal is one more in the epoch. -/
theorem epoch_succ {epoch : UInt32} {standing : List Nat}
    (counted : epoch = UInt32.ofNat standing.length) (number : Nat) :
    epoch + 1 = UInt32.ofNat (number :: standing).length := by
  rw [counted, List.length_cons, UInt32.ofNat_add]
  rfl

/-- As long as renewals can be counted, epochs are the same exactly when their counts are. -/
theorem epoch_eq_iff {left right : List Nat} (left_lt : left.length < UInt32.size)
    (right_lt : right.length < UInt32.size) :
    UInt32.ofNat left.length = UInt32.ofNat right.length ↔ left.length = right.length := by
  constructor
  · intro same
    have counts := congrArg UInt32.toNat same
    rw [UInt32.toNat_ofNat_of_lt' left_lt, UInt32.toNat_ofNat_of_lt' right_lt] at counts
    exact counts
  · intro same
    rw [same]

/-- With a guard open, its window counts what stood when it was opened. -/
theorem Fits.found (fits : history.Fits session) {guard : Guard} {outer : List Guard}
    (found : session.guards = guard :: outer) :
    guard.saved.epoch = UInt32.ofNat (history.saved.headD history.standing).length ∧
      (outer.map fun guard => guard.saved.epoch) =
        history.saved.tail.map fun stage => UInt32.ofNat stage.length := by
  have saved := fits.saved
  rw [found] at saved
  cases stages : history.saved with
  | nil =>
    rw [stages] at saved
    cases saved
  | cons inner rest =>
    rw [stages, List.map_cons, List.map_cons, List.cons.injEq] at saved
    exact saved

/-- With no guard open, nothing stood at an opening. -/
theorem Fits.unguarded (fits : history.Fits session) (none : session.guards = []) :
    history.saved = [] := by
  have saved := fits.saved
  rw [none] at saved
  exact List.map_eq_nil_iff.mp saved.symm

/-- A move of a reader keeps epochs counting. -/
theorem Fits.move {turn : Turn} {next : Session} (fits : history.Fits session)
    (moved : session.Move turn next) : (history.turned turn).Fits next := by
  have epoch_of : ∀ (other : Session) (window : Window),
      (other.withTape (session.tape.restore window)).window.epoch = window.epoch := by
    intro other window
    rw [Session.window, Session.tape, Session.withTape, Buffer.tape_withTape]
    rfl
  cases moved with
  | looks => exact fits
  | marks name => exact ⟨fits.epoch, fits.saved⟩
  | reads count inside => exact ⟨(epoch_of _ _).trans fits.epoch, fits.saved⟩
  | disarms found =>
    have saved := fits.saved
    rw [found] at saved
    exact ⟨fits.epoch, saved⟩
  | resets => exact ⟨(epoch_of _ _).trans (epoch_succ fits.epoch _), fits.saved⟩
  | returns found => exact ⟨(epoch_of _ _).trans (fits.found found).1, fits.saved⟩
  | unguarded none =>
    refine ⟨?_, fits.saved⟩
    rw [turned, fits.unguarded none]
    exact fits.epoch
  | opens =>
    refine ⟨fits.epoch, ?_⟩
    change session.window.epoch :: _ = UInt32.ofNat history.standing.length :: _
    rw [fits.epoch, fits.saved]
  | leaves found => exact ⟨fits.epoch, (fits.found found).2⟩
  | restores found => exact ⟨(epoch_of _ _).trans (fits.found found).1, (fits.found found).2⟩
  | unopened none =>
    refine ⟨fits.epoch, ?_⟩
    rw [turned, fits.unguarded none, none]
    rfl

/-- A change keeps epochs counting, unless it places the window. -/
theorem Fits.change {turn : Turn} {next : Session} (fits : history.Fits session)
    (changed : session.Change turn next) (unplaced : turn ≠ .places) :
    (history.turned turn).Fits next := by
  cases changed with
  | moves moved => exact fits.move moved
  | places window => exact absurd rfl unplaced
  | adds data unguarded stored sound =>
    refine ⟨?_, fits.saved⟩
    rw [Session.window, Session.tape, stored]
    exact fits.epoch
  | clears unguarded cleared sound =>
    refine ⟨?_, fits.saved⟩
    rw [Session.window, Session.tape, cleared]
    exact epoch_succ fits.epoch _

/-- Timelines that place no window keep epochs counting. -/
theorem Fits.after {events : List Event} (fits : history.Fits session)
    (allowed : session.Admits events) (unplaced : ∀ window, .owner (.place window) ∉ events) :
    (history.after events session).Fits (session.after events) := by
  induction events generalizing history session with
  | nil => exact fits
  | cons event later ih =>
    have ⟨turn, others⟩ := session.unplaced_cons unplaced
    exact ih (fits.change (Event.apply_change allowed.1) turn) allowed.2 others

end History

/-! ## Marks -/

/-- A moment of a timeline. -/
structure Moment where
  /-- The session at that moment. -/
  session : Session
  /-- The renewals up to that moment. -/
  history : History
deriving DecidableEq, Repr

/-- The moment after events from a session that begins to read a buffer. -/
def Buffer.moment (events : List Event) (buffer : Buffer) : Moment :=
  ⟨(Session.ofBuffer buffer).after events, History.start.after events (.ofBuffer buffer)⟩

namespace Moment

/-- To a mark taken at an earlier moment the window at a later one looks like its own. -/
structure LooksLike (read taken : Moment) : Prop where
  /-- As many renewals stand since as were undone since. -/
  renewals : (read.history.renewedSince taken.history).length =
    (read.history.undoneSince taken.history).length
  /-- The window starts in the same place. -/
  start : read.session.window.start = taken.session.window.start
  /-- Reading has come as far. -/
  reached : taken.session.window.pos ≤ read.session.window.pos

/-- Where no renewal was undone, no renewed window looks like the one before. -/
theorem not_looksLike {read taken : Moment}
    (kept : read.history.undoneSince taken.history = [])
    (renewed : read.history.renewedSince taken.history ≠ []) : ¬read.LooksLike taken := by
  intro alike
  have none := alike.renewals
  rw [kept, List.length_nil, List.length_eq_zero_iff] at none
  exact renewed none

end Moment

/-- What later moments of a timeline keep of an earlier one. -/
theorem Buffer.moment_append (before later : List Event) (buffer : Buffer) :
    buffer.moment (before ++ later) =
      ⟨(buffer.moment before).session.after later,
        (buffer.moment before).history.after later (buffer.moment before).session⟩ := by
  rw [moment, Session.after_append, History.after_append]
  rfl

namespace Mark

/-- A mark is refused exactly when it is not current, as bytes and as text. -/
theorem refused_iff_not_current {mark : Mark} {tape : Tape} (valid : tape.Valid) :
    (mark.bytes tape = .error .outOfBounds ↔ ¬mark.Current tape) ∧
      (mark.text tape = .error .outOfBounds ↔ ¬mark.Current tape) := by
  by_cases current : mark.Current tape
  · have read := bytes_eq valid current
    have never : ∀ bytes, textOf bytes ≠ .error .outOfBounds := by
      intro bytes
      unfold textOf
      cases Utf8.decode bytes <;> nofun
    rw [text, read]
    exact ⟨iff_of_false nofun (not_not_intro current),
      iff_of_false (never _) (not_not_intro current)⟩
  · have refused := bytes_eq_error current
    rw [text, refused]
    exact ⟨iff_of_true rfl current, iff_of_true rfl current⟩

/-- **When a mark is refused.** On every allowed timeline from a new buffer that places no window and
renews it fewer than 2 ^ 32 times, a mark that is taken at any moment is refused at a later one, as
bytes and as text, unless the later window looks like the one it was taken in: unless as many
renewals stand since as were undone, and the window starts where it started and is read as far. -/
theorem refused_iff {buffer : Buffer} (new : buffer.New) {before later : List Event}
    (allowed : (Session.ofBuffer buffer).Admits (before ++ later))
    (unplaced : ∀ window, .owner (.place window) ∉ before ++ later)
    (countable : (buffer.moment (before ++ later)).history.made < UInt32.size) :
    let taken := buffer.moment before
    let read := buffer.moment (before ++ later)
    let mark := Mark.ofTape taken.session.tape
    (mark.bytes read.session.tape = .error .outOfBounds ↔ ¬read.LooksLike taken) ∧
      (mark.text read.session.tape = .error .outOfBounds ↔ ¬read.LooksLike taken) := by
  intro taken read mark
  have sound : read.session.Sound := (Session.sound_ofBuffer new).after allowed
  have fits : read.history.Fits read.session := (History.start_fits new).after allowed unplaced
  have taken_fits : taken.history.Fits taken.session := by
    refine (History.start_fits new).after ((Session.admits_append _ _ _).mp allowed).1 ?_
    exact fun window among => unplaced window (List.mem_append_left later among)
  have ordered : read.history.Ordered := History.start_ordered.after _ _
  have taken_ordered : taken.history.Ordered := History.start_ordered.after _ _
  have follows : read.history.Follows taken.history := by
    have from_taken := taken_ordered.follows_self.after later taken.session
    have same : read = _ := buffer.moment_append before later
    rw [same]
    exact from_taken
  have read_lt := Nat.lt_of_le_of_lt ordered.length_le countable
  have taken_lt := Nat.lt_of_le_of_lt taken_ordered.length_le
    (Nat.lt_of_le_of_lt follows.made_le countable)
  have epochs : read.session.window.epoch = taken.session.window.epoch ↔
      (read.history.renewedSince taken.history).length =
        (read.history.undoneSince taken.history).length := by
    rw [fits.epoch, taken_fits.epoch, History.epoch_eq_iff read_lt taken_lt,
      follows.length_eq_iff taken_ordered]
  have current : mark.Current read.session.tape ↔ read.LooksLike taken :=
    ⟨fun ⟨epoch, start, reached⟩ => ⟨epochs.mp epoch, start, reached⟩,
      fun alike => ⟨epochs.mpr alike.renewals, alike.start, alike.reached⟩⟩
  rw [← current]
  exact refused_iff_not_current sound.buffer.tape.valid

/-- A mark taken before a reset is refused after it, though reading has come further since. -/
theorem refused_after_reset :
    let before : List Event := [.owner (.write [97, 98, 99])]
    let later : List Event := [.reader .reset, .owner (.write [100, 101]), .reader (.advance 2)]
    let taken := Buffer.moment before (.growing (.empty 16 64))
    let read := Buffer.moment (before ++ later) (.growing (.empty 16 64))
    (Mark.ofTape taken.session.tape).bytes read.session.tape = .error .outOfBounds := by
  intro before later taken read
  have new : (Buffer.growing (.empty 16 64)).New := .growing 16 64 (by decide)
  have allowed : (Session.ofBuffer (.growing (.empty 16 64))).Admits (before ++ later) :=
    ⟨rfl, trivial, rfl, trivial, trivial⟩
  have unplaced : ∀ window, .owner (.place window) ∉ before ++ later := by
    simp [before, later]
  have refused := refused_iff new allowed unplaced (by decide +kernel)
  exact refused.1.mpr (Moment.not_looksLike (by decide +kernel) (by decide +kernel))

/-- A mark taken under a guard after a reset, which the guard undoes when it is dropped, reads the
bytes that come after the next reset. -/
theorem reads_later_window :
    let session := Session.ofBuffer (.growing (.empty 16 64))
    let commands : List Command :=
      [.write (Byte.ofAscii "abc"),
        .read none (.guarded false (.act .reset (.act (.mark "t") .done)) .drop (.act .reset .done)),
        .write (Byte.ofAscii "de"),
        .read none (.act (.advance 2) (.act (.markBytes "t") .done))]
    let before : List Event := [.owner (.write (Byte.ofAscii "abc")), .opened, .reader .reset]
    let later : List Event :=
      [.reader (.mark "t"), .closed .drop, .reader .reset, .owner (.write (Byte.ofAscii "de")),
        .reader (.advance 2), .reader (.markBytes "t")]
    let taken := Buffer.moment before (.growing (.empty 16 64))
    let read := Buffer.moment (before ++ later) (.growing (.empty 16 64))
    Command.eventsAll commands session = before ++ later ∧
      read.history.renewedSince taken.history = [1] ∧
      (Mark.ofTape taken.session.tape).bytes read.session.tape = .ok (Byte.ofAscii "de") := by
  intro session commands before later taken read
  have same : Command.eventsAll commands session = before ++ later := by decide +kernel
  have renewed : read.history.renewedSince taken.history = [1] := by decide +kernel
  have wrong : (Mark.ofTape taken.session.tape).bytes read.session.tape =
      .ok (Byte.ofAscii "de") := by decide +kernel
  exact ⟨same, renewed, wrong⟩

end Mark

end WireScan
