import Mathlib.Data.List.Perm.Subperm
import Mathlib.Logic.Function.Basic
import WireScan.Proofs.Encoding
import WireScan.Proofs.Staleness
import WireScan.Proofs.Trail

/-!
# What a mark covers

A mark keeps the epoch and the start of its window, and both may come back when a renewal is undone.
Where none is (`History.Whole`), the renewals that stand are those that were made, and windows with
the same renewals start in the same place (`History.Origin`), so a mark tells its window from every
other (`Buffer.same_window_iff`). What it covers are then the bytes that were read since it was
taken, as a trail noted them when they were read (`Mark.covers_passed`): no growth of the store, no
later bytes and no guard that puts its window back can change them.
-/
namespace WireScan

/-- The window up to where reading stands is what is stored there. -/
theorem Tape.contents_take_position {tape : Tape} (valid : tape.Valid) :
    tape.contents.take tape.position =
      (tape.bytes.toList.take tape.window.pos).drop tape.window.start := by
  rw [contents_eq valid, List.take_drop, List.take_take, position, Window.position,
    Nat.add_sub_cancel' valid.start_le_pos, Nat.min_eq_left valid.pos_le_stop]

namespace History

variable {history : History}

/-! ## Renewals that all stand -/

/-- No renewal was undone: every one that was made stands. -/
def Whole (history : History) : Prop := ∀ number < history.made, number ∈ history.standing

instance (history : History) : Decidable history.Whole :=
  inferInstanceAs (Decidable (∀ number < history.made, number ∈ history.standing))

/-- Where no renewal was undone, none was before the last event. -/
theorem Whole.of_turned {turn : Turn} (whole : (history.turned turn).Whole)
    (ordered : history.Ordered) : history.Whole := by
  intro number made
  have stands := whole number (Nat.lt_of_lt_of_le made (history.made_le_turned turn))
  rcases ordered.standing_turned turn with ended | ⟨_, renewed⟩
  · exact ended.mem stands
  · rw [renewed, List.mem_cons] at stands
    exact stands.resolve_left (Nat.ne_of_lt made)

/-- Where no renewal was undone, none was at an earlier moment. -/
theorem Whole.of_after {events : List Event} {session : Session}
    (whole : (history.after events session).Whole) (ordered : history.Ordered) : history.Whole := by
  induction events generalizing history session with
  | nil => exact whole
  | cons event later ih => exact (ih whole (ordered.turned _)).of_turned ordered

/-- Where no renewal was undone, as many stand as were made. -/
theorem Whole.length_eq (whole : history.Whole) (ordered : history.Ordered) :
    history.standing.length = history.made := by
  have all : List.range history.made ⊆ history.standing := fun number among =>
    whole number (List.mem_range.mp among)
  have made_le := (List.subperm_of_subset List.nodup_range all).length_le
  rw [List.length_range] at made_le
  exact Nat.le_antisymm ordered.length_le made_le

/-- Where no renewal was undone and none was made since, the same renewals stand. -/
theorem Follows.standing_eq {now earlier : History} (follows : now.Follows earlier)
    (ordered : now.Ordered) (earlier_ordered : earlier.Ordered) (whole : now.Whole)
    (earlier_whole : earlier.Whole) (same : now.made = earlier.made) :
    now.standing = earlier.standing := by
  obtain ⟨fresh, kept, parts, ended, made⟩ := follows.parts now.standing List.mem_cons_self
  have none : fresh = [] := by
    refine List.eq_nil_iff_forall_not_mem.mpr fun number among => ?_
    have below := ordered.below number (parts ▸ List.mem_append_left kept among)
    exact Nat.not_lt.mpr (made number among) (same ▸ below)
  rw [none, List.nil_append] at parts
  rw [← parts] at ended
  refine ended.eq_of_length ?_
  rw [whole.length_eq ordered, earlier_whole.length_eq earlier_ordered, same]

/-! ## Where windows start -/

/-- The renewals that stand, and those that stood when the open guards were opened. -/
def stack (history : History) : Stacked (List Nat) := ⟨history.standing, history.saved⟩

/-- The renewals that stand change as the windows do. -/
theorem stack_turned (history : History) (turn : Turn) :
    (history.turned turn).stack = history.stack.turned turn (history.turned turn).standing := by
  cases turn with
  | closes returning => cases returning <;> rfl
  | _ => rfl

/-- A window starts where an origin says, of the renewals that stood, all of them made. -/
structure Starts (origin : List Nat → Nat) (made : Nat) (stage : List Nat) (window : Window) :
    Prop where
  /-- Every renewal was made. -/
  below : ∀ number ∈ stage, number < made
  /-- The window starts where the origin says. -/
  start : window.start = origin stage

/-- An origin says of the renewals that stand, and of those that stood when a guard was opened, where
the window starts. -/
abbrev Origin (history : History) (origin : List Nat → Nat) (session : Session) : Prop :=
  history.stack.Related (Starts origin history.made) session.windows

/-- A later origin says the same of renewals that were all made before. -/
def Extends (made : Nat) (origin later : List Nat → Nat) : Prop :=
  ∀ stage : List Nat, (∀ number ∈ stage, number < made) → later stage = origin stage

/-- At first nothing stands, and the window starts where it starts. -/
theorem start_origin (buffer : Buffer) :
    start.Origin (fun _ => buffer.window.start) (Session.ofBuffer buffer) :=
  ⟨⟨nofun, rfl⟩, .nil⟩

variable {origin : List Nat → Nat} {session : Session}

/-- Only a renewal is counted. -/
theorem made_turned {turn : Turn} (stays : turn ≠ .renews) :
    (history.turned turn).made = history.made := by
  cases turn with
  | renews => exact absurd rfl stays
  | closes returning => cases returning <;> rfl
  | _ => rfl

/-- After a renewal the origin says in addition where the new window starts. -/
theorem Origin.renewed {next : Session} (origins : history.Origin origin session)
    (sound : session.Sound) (changed : session.Change .renews next) :
    ∃ later, Extends history.made origin later ∧ (history.turned .renews).Origin later next := by
  let later := Function.update origin (history.made :: history.standing) next.window.start
  have kept : Extends history.made origin later := by
    intro stage below
    refine Function.update_of_ne (fun same => ?_) _ _
    exact Nat.lt_irrefl _ (below history.made (same ▸ List.mem_cons_self))
  have before : history.stack.Related (Starts later (history.made + 1)) session.windows :=
    origins.imp fun stage window starts =>
      ⟨fun number among => Nat.lt_succ_of_lt (starts.below number among),
        starts.start.trans (kept stage starts.below).symm⟩
  have start : next.window.start = later (history.made :: history.standing) :=
    (Function.update_self (history.made :: history.standing) next.window.start origin).symm
  have below : ∀ number ∈ history.made :: history.standing, number < history.made + 1 := by
    intro number among
    rcases List.mem_cons.mp among with rfl | among
    · exact Nat.lt_succ_self _
    · exact Nat.lt_succ_of_lt (origins.now.below number among)
  refine ⟨later, kept, ?_⟩
  rw [Origin, stack_turned, changed.windows sound]
  exact before.turned nofun fun _ => ⟨below, start⟩

/-- After any other change the origin says what it said, unless the window was placed. -/
theorem Origin.stayed {turn : Turn} {next : Session} (origins : history.Origin origin session)
    (sound : session.Sound) (changed : session.Change turn next) (stays : turn ≠ .renews)
    (unplaced : turn ≠ .places) : (history.turned turn).Origin origin next := by
  rw [Origin, made_turned stays, stack_turned, changed.windows sound]
  refine Stacked.Related.turned origins unplaced fun going => ?_
  obtain rfl := going.resolve_right stays
  have start : next.window.start = session.window.start := by
    rcases changed.goes_on sound with ⟨_, _, same⟩ | ⟨_, _, same⟩
    · rw [Session.window, same]
    · rw [Session.window, same]
      rfl
  exact ⟨origins.now.below, start.trans origins.now.start⟩

/-- Every allowed timeline that places no window keeps what the origin says, and adds to it. -/
theorem Origin.after {events : List Event} (origins : history.Origin origin session)
    (sound : session.Sound) (allowed : session.Admits events)
    (unplaced : ∀ window, .owner (.place window) ∉ events) :
    ∃ later, Extends history.made origin later ∧
      (history.after events session).Origin later (session.after events) := by
  induction events generalizing history session origin with
  | nil => exact ⟨origin, fun _ _ => rfl, origins⟩
  | cons event rest ih =>
    have ⟨turn, others⟩ := session.unplaced_cons unplaced
    have changed := Event.apply_change allowed.1
    obtain ⟨middle, kept, next⟩ : ∃ middle, Extends history.made origin middle ∧
        (history.turned (event.turn session)).Origin middle (event.apply session) := by
      by_cases renews : event.turn session = .renews
      · rw [renews] at changed ⊢
        exact origins.renewed sound changed
      · exact ⟨origin, fun _ _ => rfl, origins.stayed sound changed renews turn⟩
    obtain ⟨later, kept_later, last⟩ := ih next (sound.change changed) allowed.2 others
    refine ⟨later, fun stage below => ?_, last⟩
    rw [← kept stage below]
    refine kept_later stage fun number among => ?_
    exact Nat.lt_of_lt_of_le (below number among) (history.made_le_turned _)

end History

namespace Buffer

variable {buffer : Buffer} {before later : List Event}

/-- At every moment the renewals are in order. -/
theorem moment_ordered (events : List Event) (buffer : Buffer) :
    (buffer.moment events).history.Ordered :=
  History.start_ordered.after events _

/-- A later moment follows an earlier one. -/
theorem moment_follows (before later : List Event) (buffer : Buffer) :
    (buffer.moment (before ++ later)).history.Follows (buffer.moment before).history := by
  rw [moment_append]
  exact (buffer.moment_ordered before).follows_self.after later _

/-- Where no renewal was undone, none was at an earlier moment. -/
theorem whole_before (whole : (buffer.moment (before ++ later)).history.Whole) :
    (buffer.moment before).history.Whole := by
  rw [moment_append] at whole
  exact whole.of_after (buffer.moment_ordered before)

/-- With the same renewals standing the window starts in the same place. -/
theorem start_eq_of_standing_eq (new : buffer.New)
    (allowed : (Session.ofBuffer buffer).Admits (before ++ later))
    (unplaced : ∀ window, .owner (.place window) ∉ before ++ later)
    (stands : (buffer.moment (before ++ later)).history.standing =
      (buffer.moment before).history.standing) :
    (buffer.moment (before ++ later)).session.window.start =
      (buffer.moment before).session.window.start := by
  have ⟨allowed_before, allowed_later⟩ := (Session.admits_append _ _ _).mp allowed
  have sound := Session.sound_ofBuffer new
  obtain ⟨origin, _, taken⟩ := (History.start_origin buffer).after sound allowed_before
    fun window among => unplaced window (List.mem_append_left later among)
  obtain ⟨later_origin, kept, read⟩ := taken.after (sound.after allowed_before) allowed_later
    fun window among => unplaced window (List.mem_append_right before among)
  rw [moment_append] at stands ⊢
  calc ((buffer.moment before).session.after later).window.start
    _ = later_origin _ := read.now.start
    _ = later_origin (buffer.moment before).history.standing := congrArg later_origin stands
    _ = origin (buffer.moment before).history.standing := kept _ taken.now.below
    _ = (buffer.moment before).session.window.start := taken.now.start.symm

/-- Where no renewal was undone, the window of a later moment has the epoch and the start that it had
exactly when no renewal was made since. -/
theorem same_window_iff (new : buffer.New)
    (allowed : (Session.ofBuffer buffer).Admits (before ++ later))
    (unplaced : ∀ window, .owner (.place window) ∉ before ++ later)
    (countable : (buffer.moment (before ++ later)).history.made < UInt32.size)
    (whole : (buffer.moment (before ++ later)).history.Whole) :
    (buffer.moment (before ++ later)).session.window.epoch =
          (buffer.moment before).session.window.epoch ∧
        (buffer.moment (before ++ later)).session.window.start =
          (buffer.moment before).session.window.start ↔
      (buffer.moment (before ++ later)).history.made = (buffer.moment before).history.made := by
  have follows := buffer.moment_follows before later
  have ordered := buffer.moment_ordered (before ++ later)
  have taken_ordered := buffer.moment_ordered before
  have taken_whole := whole_before whole
  have epoch : (buffer.moment (before ++ later)).session.window.epoch = _ :=
    ((History.start_fits new).after allowed unplaced).epoch
  have taken_epoch : (buffer.moment before).session.window.epoch = _ :=
    ((History.start_fits new).after ((Session.admits_append _ _ _).mp allowed).1
      fun window among => unplaced window (List.mem_append_left later among)).epoch
  constructor
  · rintro ⟨same, -⟩
    have read_lt := Nat.lt_of_le_of_lt ordered.length_le countable
    have taken_lt := Nat.lt_of_le_of_lt taken_ordered.length_le
      (Nat.lt_of_le_of_lt follows.made_le countable)
    have lengths := (History.epoch_eq_iff read_lt taken_lt).mp
      (epoch.symm.trans (same.trans taken_epoch))
    rw [whole.length_eq ordered, taken_whole.length_eq taken_ordered] at lengths
    exact lengths
  · intro made
    have stands := follows.standing_eq ordered taken_ordered whole taken_whole made
    have same : (buffer.moment (before ++ later)).session.window.epoch =
        (buffer.moment before).session.window.epoch :=
      epoch.trans ((congrArg (fun stage => UInt32.ofNat stage.length) stands).trans
        taken_epoch.symm)
    exact ⟨same, start_eq_of_standing_eq new allowed unplaced stands⟩

end Buffer

namespace Mark

/-- What a mark covers on a tape, of whose window a trail holds what was read. -/
structure Covers (mark : Mark) (tape : Tape) (trail : Trail) (bytes : List UInt8) : Prop where
  /-- They are the bytes of the window from the mark to where reading stands. -/
  contents : bytes = (tape.contents.take tape.position).drop mark.start
  /-- They are the bytes that were read since, as they were read. -/
  passed : bytes = trail.now.drop mark.start
  /-- The size is their number. -/
  size : mark.size tape = bytes.length
  /-- They end as many positions after the start. -/
  stop : mark.stop tape = mark.start + mark.size tape
  /-- As text they are read exactly when they encode it. -/
  text : ∀ text, mark.text tape = .ok text ↔ bytes = Utf8.encode text

/-- A mark is read exactly when it is current. -/
theorem exists_bytes_iff {mark : Mark} {tape : Tape} (valid : tape.Valid) :
    (∃ bytes, mark.bytes tape = .ok bytes) ↔ mark.Current tape := by
  by_cases current : mark.Current tape
  · exact iff_of_true ⟨_, bytes_eq valid current⟩ current
  · rw [bytes_eq_error current]
    exact iff_of_false nofun current

/-- What a current mark of a window that starts before it reads is what it covers. -/
theorem Current.covers {mark : Mark} {tape : Tape} (current : mark.Current tape)
    (valid : tape.Valid) (ordered : mark.windowStart ≤ mark.pos) {trail : Trail}
    (noted : Trail.Passed tape.bytes trail.now tape.window) {bytes : List UInt8}
    (read : mark.bytes tape = .ok bytes) : mark.Covers tape trail bytes := by
  have marked := bytes_eq valid current
  rw [read, Except.ok.injEq] at marked
  obtain ⟨_, start, reached⟩ := current
  have position := Tape.contents_take_position valid
  have offset : tape.window.start + mark.start = mark.pos := by
    rw [start, Mark.start]
    exact Nat.add_sub_cancel' ordered
  have since : bytes = ((tape.bytes.toList.take tape.window.pos).drop tape.window.start).drop
      mark.start := by
    rw [List.drop_drop, offset]
    exact marked
  have ended : mark.stop tape = tape.window.pos - tape.window.start := rfl
  have inside : tape.window.pos ≤ tape.bytes.toList.length :=
    Nat.le_trans valid.pos_le_stop valid.stop_le_length
  refine ⟨by rw [position]; exact since, by rw [noted]; exact since, ?_, ?_, fun text => ?_⟩
  · rw [size, ended, marked, List.length_drop, List.length_take, Nat.min_eq_left inside]
    omega
  · rw [size, ended]
    omega
  · rw [Mark.text, read]
    exact textOf_eq_ok_iff

/-- **What a mark covers.** On every allowed timeline from a new buffer that places no window, undoes
no renewal and makes fewer than 2 ^ 32, a mark that is taken at any moment is read at a later one
exactly when no renewal was made since and reading does not stand behind it, and it then covers
exactly the bytes that were read since. -/
theorem covers_passed {buffer : Buffer} (new : buffer.New) {before later : List Event}
    (allowed : (Session.ofBuffer buffer).Admits (before ++ later))
    (unplaced : ∀ window, .owner (.place window) ∉ before ++ later)
    (countable : (buffer.moment (before ++ later)).history.made < UInt32.size)
    (whole : (buffer.moment (before ++ later)).history.Whole) :
    let taken := buffer.moment before
    let read := buffer.moment (before ++ later)
    let trail := Trail.start.after (before ++ later) (.ofBuffer buffer)
    let mark := Mark.ofTape taken.session.tape
    ((∃ bytes, mark.bytes read.session.tape = .ok bytes) ↔
        read.history.made = taken.history.made ∧
          taken.session.window.pos ≤ read.session.window.pos) ∧
      ∀ bytes, mark.bytes read.session.tape = .ok bytes →
        mark.Covers read.session.tape trail bytes := by
  intro taken read trail mark
  have sound := Session.sound_ofBuffer new
  have valid : read.session.tape.Valid := (sound.after allowed).buffer.tape.valid
  have taken_valid : taken.session.tape.Valid :=
    (sound.after ((Session.admits_append _ _ _).mp allowed).1).buffer.tape.valid
  have fits : trail.Fits read.session := (Trail.start_fits new).after sound allowed unplaced
  have same_window : read.session.window.epoch = taken.session.window.epoch ∧
      read.session.window.start = taken.session.window.start ↔
        read.history.made = taken.history.made :=
    Buffer.same_window_iff new allowed unplaced countable whole
  refine ⟨?_, fun bytes marked => ?_⟩
  · rw [exists_bytes_iff valid, ← same_window]
    exact and_assoc.symm
  · have current := (exists_bytes_iff valid).mp ⟨bytes, marked⟩
    exact current.covers valid taken_valid.start_le_pos fits.now marked

/-- A mark taken after a reset covers what is read since, over a write that makes the store grow and a
guard that puts back what it read. -/
theorem covers_passed_growth :
    let before : List Event :=
      [.owner (.write [96, 97]), .reader .reset, .owner (.write [98]), .reader (.advance 1)]
    let later : List Event :=
      [.owner (.write [99, 100, 101, 102, 103, 104]), .opened, .reader (.advance 4), .closed .drop,
        .reader (.advance 2)]
    let taken := Buffer.moment before (.growing (.empty 4 64))
    let read := Buffer.moment (before ++ later) (.growing (.empty 4 64))
    let trail := Trail.start.after (before ++ later) (.ofBuffer (.growing (.empty 4 64)))
    (Mark.ofTape taken.session.tape).bytes read.session.tape = .ok [99, 100] ∧
      (Mark.ofTape taken.session.tape).Covers read.session.tape trail [99, 100] := by
  intro before later taken read trail
  have new : (Buffer.growing (.empty 4 64)).New := .growing 4 64 (by decide)
  have allowed : (Session.ofBuffer (.growing (.empty 4 64))).Admits (before ++ later) :=
    ⟨rfl, trivial, rfl, trivial, rfl, trivial, trivial, trivial, trivial, trivial⟩
  have unplaced : ∀ window, .owner (.place window) ∉ before ++ later := by
    simp [before, later]
  have marked : (Mark.ofTape taken.session.tape).bytes read.session.tape = .ok [99, 100] := by
    decide +kernel
  exact ⟨marked,
    (covers_passed new allowed unplaced (by decide +kernel) (by decide +kernel)).2 _ marked⟩

end Mark

end WireScan
