import WireScan.Proofs.Progress
import WireScan.Proofs.Trail
import WireScan.Proofs.Views

/-!
# Where the bytes of a window are stored

A reader cannot tell where the bytes of its window are stored. Whatever lies before the window or
after it, and however often the window was emptied before, a session is a copy of one that reads the
bytes of the window alone: every index stands as many bytes further on, and every epoch as many
epochs later (`Placement`). Each action answers alike on both and keeps the copy a copy
(`Placement.Mirrors.perform`), and so does a whole script (`Placement.Mirrors.run`). Two sessions
with the same window at the same position are copies of the same one, so all that a script tells
(`Transcript.story`) is the same on both (`Session.reading_alike`).
-/
namespace WireScan

/-- Where a copy of a tape is placed: how many bytes lie before it, and how many epochs. -/
structure Placement where
  /-- How many bytes are stored before those of the tape. -/
  origin : Nat
  /-- How many epochs the window had before, modulo 2 ^ 32. -/
  epochs : UInt32

namespace Placement

variable (place : Placement)

/-- A window at a place. -/
def window (window : Window) : Window :=
  ⟨place.origin + window.start, place.origin + window.pos, place.origin + window.stop,
    place.epochs + window.epoch⟩

/-- A mark at a place. -/
def mark (mark : Mark) : Mark :=
  ⟨place.origin + mark.windowStart, place.origin + mark.pos, place.epochs + mark.epoch⟩

/-- A guard at a place. -/
def guard (guard : Guard) : Guard := { guard with saved := place.window guard.saved }

/-- Reading has come as far at every place. -/
@[simp] theorem position_window (window : Window) :
    (place.window window).position = window.position := Nat.add_sub_add_left _ _ _

/-- As many bytes lie ahead at every place. -/
@[simp] theorem available_window (window : Window) :
    (place.window window).available = window.available := Nat.add_sub_add_left _ _ _

/-- A window is emptied alike at every place. -/
theorem window_renewed (window : Window) :
    place.window window.renewed = (place.window window).renewed := by
  simp only [Placement.window, Window.renewed, UInt32.add_assoc]

/-- A mark begins alike at every place. -/
@[simp] theorem start_mark (mark : Mark) : (place.mark mark).start = mark.start :=
  Nat.add_sub_add_left _ _ _

/-- Marks at a place are the same exactly when they are without it. -/
theorem mark_inj {left right : Mark} : place.mark left = place.mark right ↔ left = right := by
  cases left
  cases right
  simp only [Placement.mark, Mark.mk.injEq, Nat.add_left_cancel_iff, UInt32.add_right_inj]

/-- A mark is found under its name at every place. -/
theorem lookup_map_mark (name : String) (marks : List (String × Mark)) :
    (marks.map (Prod.map id place.mark)).lookup name =
      (marks.lookup name).map place.mark := by
  induction marks with
  | nil => rfl
  | cons first rest ih =>
    obtain ⟨key, taken⟩ := first
    simp only [List.map_cons, Prod.map_apply, id_eq, List.lookup_cons]
    cases name == key with
    | true => rfl
    | false => exact ih

/-- A tape is a copy at a place of another one, perhaps with more bytes around it. -/
structure Holds (alone tape : Tape) : Prop where
  /-- The other tape is sound. -/
  sound_alone : alone.Sound
  /-- The tape is sound. -/
  sound : tape.Sound
  /-- The bytes of the other tape are stored at the place. -/
  bytes : ∃ before after, tape.bytes.toList = before ++ (alone.bytes.toList ++ after) ∧
    before.length = place.origin
  /-- The window is that of the other tape at the place. -/
  window : tape.window = place.window alone.window

namespace Holds

variable {place : Placement} {alone tape : Tape}

/-- The copied bytes end inside the store. -/
theorem inside (held : place.Holds alone tape) :
    place.origin + alone.bytes.size ≤ tape.bytes.size := by
  obtain ⟨before, after, stored, placed⟩ := held.bytes
  have counted := congrArg List.length stored
  simp only [List.length_append, Array.length_toList] at counted
  omega

/-- A range of the copied bytes is found at the place. -/
theorem slice? (held : place.Holds alone tape) {start stop : Nat}
    (inside : stop ≤ alone.bytes.size) :
    tape.slice? (place.origin + start) (place.origin + stop) = alone.slice? start stop := by
  have bounded : place.origin + stop ≤ tape.bytes.size :=
    Nat.le_trans (Nat.add_le_add_left inside _) held.inside
  by_cases ordered : start ≤ stop
  · obtain ⟨before, after, stored, placed⟩ := held.bytes
    have short : stop ≤ alone.bytes.toList.length := inside
    rw [Tape.slice?_eq ordered inside, Tape.slice?_eq (Nat.add_le_add_left ordered _) bounded,
      stored, ← placed, List.take_length_add_append, List.drop_length_add_append,
      List.take_append_of_le_length short]
  · rw [Tape.slice?, Tape.slice?, if_neg fun found => ordered (Nat.le_of_add_le_add_left found.1),
      if_neg fun found => ordered found.1]

/-- Reading has come as far. -/
theorem position (held : place.Holds alone tape) : tape.position = alone.position := by
  rw [Tape.position, held.window, place.position_window]
  rfl

/-- As many bytes are available. -/
theorem available (held : place.Holds alone tape) : tape.available = alone.available := by
  rw [Tape.available, held.window, place.available_window]
  rfl

/-- The windows hold the same bytes. -/
theorem contents (held : place.Holds alone tape) : tape.contents = alone.contents := by
  rw [Tape.contents, held.window]
  exact congrArg (·.getD []) (held.slice? held.sound_alone.valid.stop_le_length)

/-- The same bytes lie ahead. -/
theorem ahead (held : place.Holds alone tape) : tape.ahead = alone.ahead := by
  rw [Tape.ahead_eq_drop held.sound.valid, Tape.ahead_eq_drop held.sound_alone.valid, held.contents,
    held.position]

/-- The windows hold the same bytes from an offset on. -/
theorem contentsFrom (held : place.Holds alone tape) (offset : Nat) :
    tape.contentsFrom offset = alone.contentsFrom offset := by
  rw [held.sound.contentsFrom_eq, held.sound_alone.contentsFrom_eq, held.contents]

/-- All that lies ahead at once is the same. -/
theorem survey (held : place.Holds alone tape) : tape.survey = alone.survey := by
  have next : tape.peek? = alone.peek? := by
    rw [Tape.peek?_eq held.sound.valid, Tape.peek?_eq held.sound_alone.valid, held.ahead]
  have second : tape.peekSecond? = alone.peekSecond? := by
    rw [Tape.peekSecond?_eq held.sound.valid, Tape.peekSecond?_eq held.sound_alone.valid,
      held.ahead]
  simp only [Tape.survey, Tape.atEnd, Tape.atLineEnd, held.position, held.available, held.ahead,
    next, second]

/-- A mark is current alike. -/
theorem current_iff (held : place.Holds alone tape) (mark : Mark) :
    (place.mark mark).Current tape ↔ mark.Current alone := by
  simp only [Mark.Current, held.window, Placement.window, Placement.mark, Nat.add_left_cancel_iff,
    Nat.add_le_add_iff_left, UInt32.add_right_inj]

/-- A mark marks the same bytes, or is refused on both. -/
theorem bytes_mark (held : place.Holds alone tape) (mark : Mark) :
    (place.mark mark).bytes tape = mark.bytes alone := by
  have reached : alone.window.pos ≤ alone.bytes.size :=
    Nat.le_trans held.sound_alone.valid.pos_le_stop held.sound_alone.valid.stop_le_length
  have found : tape.slice? (place.mark mark).pos tape.window.pos =
      alone.slice? mark.pos alone.window.pos := by
    rw [held.window]
    exact held.slice? reached
  simp only [Mark.bytes, held.current_iff, found]

end Holds

/-! ## Sessions -/

/-- A session is a copy at a place of another one: its tape, its guards and its marks are. -/
structure Mirrors (alone session : Session) : Prop where
  /-- The other session is sound. -/
  sound_alone : alone.Sound
  /-- The session is sound. -/
  sound : session.Sound
  /-- The bytes of the other session are stored at the place. -/
  bytes : ∃ before after, session.tape.bytes.toList = before ++ (alone.tape.bytes.toList ++ after) ∧
    before.length = place.origin
  /-- The window is that of the other session at the place. -/
  window : session.window = place.window alone.window
  /-- The guards are those of the other session at the place. -/
  guards : session.guards = alone.guards.map place.guard
  /-- The marks are those of the other session at the place. -/
  marks : session.marks = alone.marks.map (Prod.map id place.mark)

namespace Mirrors

variable {place : Placement} {alone session : Session}

/-- The tape is a copy of that of the other session. -/
theorem holds (mirrors : place.Mirrors alone session) : place.Holds alone.tape session.tape :=
  ⟨mirrors.sound_alone.buffer.tape, mirrors.sound.buffer.tape, mirrors.bytes, mirrors.window⟩

/-- Reading has come as far in both windows. -/
theorem position (mirrors : place.Mirrors alone session) :
    session.window.position = alone.window.position := mirrors.holds.position

/-- As many bytes lie ahead in both windows. -/
theorem available (mirrors : place.Mirrors alone session) :
    session.window.available = alone.window.available := mirrors.holds.available

/-- A copy stays one when both sessions move and their windows, guards and marks agree. -/
theorem move (mirrors : place.Mirrors alone session) {turn_alone turn : Turn}
    {next_alone next : Session} (moved_alone : alone.Move turn_alone next_alone)
    (moved : session.Move turn next) (window : next.window = place.window next_alone.window)
    (guards : next.guards = next_alone.guards.map place.guard)
    (marks : next.marks = next_alone.marks.map (Prod.map id place.mark)) :
    place.Mirrors next_alone next := by
  refine ⟨mirrors.sound_alone.move moved_alone, mirrors.sound.move moved, ?_, window, guards, marks⟩
  rw [moved.keepsStore.bytes_eq, moved_alone.keepsStore.bytes_eq]
  exact mirrors.bytes

/-- A copy stays one when as many bytes are read on both. -/
theorem skip (mirrors : place.Mirrors alone session) {count : Nat}
    (inside : count ≤ alone.tape.available) :
    place.Mirrors (alone.withTape (alone.tape.skip count))
      (session.withTape (session.tape.skip count)) := by
  have bounded : count ≤ session.tape.available := mirrors.holds.available ▸ inside
  refine mirrors.move (.reads count inside) (.reads count bounded) ?_ mirrors.guards mirrors.marks
  rw [mirrors.holds.sound.skip_eq bounded, mirrors.holds.sound_alone.skip_eq inside]
  simp only [Session.window, Session.withTape, Session.tape, Buffer.tape_withTape]
  have window : session.buffer.tape.window = place.window alone.buffer.tape.window := mirrors.window
  simp only [window, Placement.window, Nat.add_assoc]

/-- A window that a guard puts back comes back on both, with as many of the guards. -/
theorem rolledBack (mirrors : place.Mirrors alone session) {turn_alone turn : Turn} {guard : Guard}
    (among : guard ∈ alone.guards) {kept kept_copy : List Guard}
    (copied : kept_copy = kept.map place.guard)
    (moved_alone : alone.Move turn_alone
      (({ alone with guards := kept } : Session).rolledBack guard.saved))
    (moved : session.Move turn
      (({ session with guards := kept_copy } : Session).rolledBack (place.guard guard).saved)) :
    place.Mirrors (({ alone with guards := kept } : Session).rolledBack guard.saved)
      (({ session with guards := kept_copy } : Session).rolledBack (place.guard guard).saved) := by
  have among_copy : place.guard guard ∈ session.guards :=
    mirrors.guards ▸ List.mem_map_of_mem among
  refine mirrors.move moved_alone moved ?_ copied mirrors.marks
  rw [mirrors.sound_alone.window_rolledBack among, mirrors.sound.window_rolledBack among_copy]
  rfl

/-- A guard is opened on both. -/
theorem openGuard (mirrors : place.Mirrors alone session) :
    place.Mirrors alone.openGuard session.openGuard := by
  refine mirrors.move .opens .opens mirrors.window ?_ mirrors.marks
  simp only [Session.openGuard, List.map_cons, Placement.guard, mirrors.window, mirrors.guards]

/-- The innermost guard ends alike on both. -/
theorem closeGuard (mirrors : place.Mirrors alone session) (ending : Ending) :
    place.Mirrors (alone.closeGuard ending).1 (session.closeGuard ending).1 := by
  have guards := mirrors.guards
  cases found : alone.guards with
  | nil =>
    rw [found, List.map_nil] at guards
    rw [Session.closeGuard_nil found, Session.closeGuard_nil guards]
    exact mirrors
  | cons guard outer =>
    rw [found, List.map_cons] at guards
    rw [Session.closeGuard_cons found, Session.closeGuard_cons guards]
    change place.Mirrors _ (if guard.armed ∧ ending = .drop then _ else _)
    split
    · exact mirrors.rolledBack (found ▸ List.mem_cons_self) rfl (.restores found) (.restores guards)
    · exact mirrors.move (.leaves found) (.leaves guards) mirrors.window rfl mirrors.marks

end Mirrors

end Placement

/-! ## Actions -/

/-- The answer says nothing of where bytes are stored: it is not a look at the whole store, nor at
the window of a guard. -/
def Action.tells : Action → Bool
  | .storage | .savedWindow => false
  | _ => true

namespace Placement

/-- A step of a session matches one of the session that it copies: it comes to the same, and the
sessions after it are copies again. -/
structure Matches (place : Placement) (tells : Bool) (alone step : Step) : Prop where
  /-- The answers are the same, if they say nothing of where bytes are stored. -/
  answer : tells = true → step.answer = alone.answer
  /-- Both are refused or none is. -/
  isFault : step.answer.isFault = alone.answer.isFault
  /-- The session is a copy of the other one. -/
  session : place.Mirrors alone.session step.session

namespace Mirrors

variable {place : Placement} {alone session : Session}

/-- Looks that find the same match. -/
theorem answering (mirrors : place.Mirrors alone session) {answer_alone answer : Answer}
    (same : answer = answer_alone) (tells : Bool) :
    place.Matches tells (alone.answering answer_alone) (session.answering answer) :=
  ⟨fun _ => same, congrArg Answer.isFault same, mirrors⟩

/-- Questions about a mark match when the answers are the same for every mark. -/
theorem marking (mirrors : place.Mirrors alone session) (name : String)
    {answer_alone answer : Mark → Answer}
    (same : ∀ mark, answer (place.mark mark) = answer_alone mark) :
    place.Matches true (alone.marking name answer_alone) (session.marking name answer) := by
  refine mirrors.answering ?_ true
  rw [mirrors.marks, place.lookup_map_mark]
  cases alone.marks.lookup name with
  | none => rfl
  | some taken => exact same taken

/-- A scan comes to the same and reads as many bytes. -/
theorem passing (mirrors : place.Mirrors alone session) {α : Type} (scan : Scan α)
    (answer : α → Answer) :
    place.Matches true (alone.passing (alone.tape.scan scan) answer)
      (session.passing (session.tape.scan scan) answer) := by
  have ahead := mirrors.holds.ahead
  have came : (session.tape.scan scan).result = (alone.tape.scan scan).result := by
    simp only [Tape.scan, ahead]
  have same := congrArg (Answer.ofResult · answer) came
  refine ⟨fun _ => same, congrArg Answer.isFault same, ?_⟩
  simp only [Session.passing, Tape.scan, ahead]
  exact mirrors.skip (Nat.le_trans (Nat.sub_le _ _) alone.tape.length_ahead_le)

/-- An attempt at a head comes to the same, and reads the same head or nothing. -/
theorem head (mirrors : place.Mirrors alone session) :
    place.Matches true (Action.head.perform alone) (Action.head.perform session) := by
  have scanned := mirrors.passing Head.scan fun _ => .done
  have same : (Action.head.perform session).answer = (Action.head.perform alone).answer := by
    simp only [Action.perform, Session.passing, Tape.readHead_result, mirrors.holds.ahead]
  refine ⟨fun _ => same, congrArg Answer.isFault same, ?_⟩
  cases read : (Head.scan alone.tape.ahead).result with
  | ok found =>
    have kept := scanned.session
    simp only [Action.perform, Session.passing, Tape.readHead, Tape.scan, mirrors.holds.ahead,
      read] at kept ⊢
    exact kept
  | error fault =>
    have failed : (Action.head.perform alone).answer.fails = true := by
      simp only [Action.perform, Session.passing, Tape.readHead, Tape.scan, read]
      split <;> rfl
    rw [Action.head_of_fails failed, Action.head_of_fails (same ▸ failed)]
    exact mirrors

/-- **An action of a copy matches the action of what it copies.** -/
theorem perform (mirrors : place.Mirrors alone session) (action : Action) :
    place.Matches action.tells (action.perform alone) (action.perform session) := by
  have held := mirrors.holds
  cases action with
  | position => exact mirrors.answering (congrArg Answer.count held.position) _
  | available => exact mirrors.answering (congrArg Answer.count held.available) _
  | atEnd => exact mirrors.answering (congrArg (fun seen => .flag seen.atEnd) held.survey) _
  | atLineEnd => exact mirrors.answering (congrArg (fun seen => .flag seen.atLineEnd) held.survey) _
  | peek => exact mirrors.answering (congrArg (fun seen => .byte seen.next) held.survey) _
  | peekSecond => exact mirrors.answering (congrArg (fun seen => .byte seen.second) held.survey) _
  | ahead => exact mirrors.answering (congrArg Answer.bytes held.ahead) _
  | contents => exact mirrors.answering (congrArg Answer.bytes held.contents) _
  | contentsFrom offset =>
    exact mirrors.answering (congrArg Answer.bytes (held.contentsFrom offset)) _
  | storage => exact ⟨fun tells => absurd tells Bool.false_ne_true, rfl, mirrors⟩
  | survey => exact mirrors.answering (congrArg Answer.survey held.survey) _
  | distanceFrom earlier =>
    exact mirrors.answering (congrArg (fun position => .count (position - earlier)) held.position) _
  | distanceTo data reached =>
    refine mirrors.answering ?_ _
    simp only [Tape.distanceTo, held.position]
  | advance count =>
    simp only [Action.perform, Session.moving, Tape.advance, held.available]
    by_cases short : alone.tape.available < count
    · rw [if_pos short, if_pos short]
      exact mirrors.answering rfl _
    · rw [if_neg short, if_neg short]
      exact ⟨fun _ => rfl, rfl, mirrors.skip (Nat.le_of_not_lt short)⟩
  | reset =>
    refine ⟨fun _ => rfl, rfl, mirrors.move .resets .resets ?_ mirrors.guards mirrors.marks⟩
    have renewed_alone := congrArg Tape.window (Session.Move.resets.renews mirrors.sound_alone)
    have renewed := congrArg Tape.window (Session.Move.resets.renews mirrors.sound)
    simp only [mirrors.window, ← place.window_renewed] at renewed
    exact renewed.trans (congrArg place.window renewed_alone.symm)
  | exactly expected => exact mirrors.passing _ _
  | byte expected rule => exact mirrors.passing _ _
  | upTo stops rule => exact mirrors.passing _ _
  | numeral => exact mirrors.passing _ _
  | head => exact mirrors.head
  | mark name =>
    refine ⟨fun _ => rfl, rfl,
      mirrors.move (.marks name) (.marks name) mirrors.window mirrors.guards ?_⟩
    have taken : Mark.ofTape session.tape = place.mark (Mark.ofTape alone.tape) := by
      simp only [Mark.ofTape, held.window, Placement.window, Placement.mark]
    exact congrArg₂ (fun mark marks => (name, mark) :: marks) taken mirrors.marks
  | markStart name =>
    exact mirrors.marking name fun mark => congrArg Answer.count (place.start_mark mark)
  | markStop name => exact mirrors.marking name fun _ => congrArg Answer.count held.position
  | markSize name =>
    refine mirrors.marking name fun mark => ?_
    simp only [Mark.size, Mark.stop, place.start_mark, held.position]
  | markBytes name =>
    refine mirrors.marking name fun mark => ?_
    rw [held.bytes_mark]
  | markText name =>
    refine mirrors.marking name fun mark => ?_
    simp only [Mark.text, held.bytes_mark]
  | sameMark left right =>
    refine mirrors.marking left fun first => ?_
    rw [mirrors.marks, place.lookup_map_mark]
    cases alone.marks.lookup right with
    | none => rfl
    | some second => simp only [Option.map_some, Option.elim_some, place.mark_inj]
  | rollBack =>
    have guards := mirrors.guards
    simp only [Action.perform]
    cases found : alone.guards with
    | nil =>
      rw [found, List.map_nil] at guards
      simp only [guards]
      exact mirrors.answering rfl _
    | cons guard outer =>
      rw [found, List.map_cons] at guards
      simp only [guards]
      exact ⟨fun _ => rfl, rfl, mirrors.rolledBack (found ▸ List.mem_cons_self) mirrors.guards
        (.returns found) (.returns guards)⟩
  | disarm =>
    have guards := mirrors.guards
    simp only [Action.perform]
    cases found : alone.guards with
    | nil =>
      rw [found, List.map_nil] at guards
      simp only [guards]
      exact mirrors.answering rfl _
    | cons guard outer =>
      rw [found, List.map_cons] at guards
      simp only [guards]
      exact ⟨fun _ => rfl, rfl,
        mirrors.move (.disarms found) (.disarms guards) mirrors.window rfl mirrors.marks⟩
  | savedWindow =>
    refine ⟨fun tells => absurd tells Bool.false_ne_true, ?_, mirrors⟩
    simp only [Action.perform, Session.answering, mirrors.guards]
    cases alone.guards <;> rfl

end Mirrors

end Placement

/-! ## Scripts -/

/-- What a script tells of itself but for where bytes are stored. Each form carries what is told
after it. -/
inductive Story
  /-- Nothing more. -/
  | done
  /-- The answer to an action, if it says nothing of where bytes are stored, how far reading has
  come after it and how many bytes lie ahead then. -/
  | acted (answer : Option Answer) (position available : Nat) (next : Story)
  /-- A guarded stretch: what it told, how its guard ended, how far reading has come after that and
  how many bytes lie ahead then. -/
  | guarded (body : Story) (ending : Ending) (position available : Nat) (next : Story)
deriving DecidableEq, Repr

/-- What a record of a script tells but for where bytes are stored. -/
def Transcript.story : Script → Transcript → Story
  | .act action next, .acted answer window _ later =>
    .acted (if action.tells then some answer else none) window.position window.available
      (later.story next)
  | .guarded _ body _ next, .guarded inner ending window _ later =>
    .guarded (inner.story body) ending window.position window.available (later.story next)
  | _, _ => .done

/-- What a reply to a script tells but for where bytes are stored. A refusal to begin it is told as
it is. -/
def Reply.story (script : Script) : Reply → Reply ⊕ Story
  | .transcript recorded => .inr (recorded.story script)
  | other => .inl other

namespace Placement

/-- A run of a script on a session matches its run on the session that it copies. -/
structure Retells (place : Placement) (script : Script) (alone run : Run) : Prop where
  /-- The same is told. -/
  story : run.transcript.story script = alone.transcript.story script
  /-- Both end early or none does. -/
  failed : run.failed = alone.failed
  /-- The session is a copy of the other one. -/
  session : place.Mirrors alone.session run.session

namespace Mirrors

variable {place : Placement} {alone session : Session}

/-- **A script on a copy tells the same.** By induction on the script: each action keeps the copy a
copy, and so do the opening and the end of a guard. -/
theorem run (mirrors : place.Mirrors alone session) (strict : Bool) (script : Script) :
    place.Retells script (script.run strict alone) (script.run strict session) := by
  induction script generalizing strict alone session with
  | done => exact ⟨rfl, rfl, mirrors⟩
  | act action next ih =>
    have acted := mirrors.perform action
    have told : (if action.tells then some (action.perform session).answer else none) =
        if action.tells then some (action.perform alone).answer else none := by
      split
      · rename_i tells
        rw [acted.answer tells]
      · rfl
    have position := acted.session.position
    have available := acted.session.available
    have later := ih acted.session strict
    rw [Script.run, Script.run]
    dsimp only
    rw [acted.isFault]
    split
    · refine ⟨?_, rfl, acted.session⟩
      simp only [Transcript.story, told, position, available]
    · refine ⟨?_, later.failed, later.session⟩
      simp only [Transcript.story, told, position, available, later.story]
  | guarded strictly body asked next body_ih next_ih =>
    have inner := body_ih mirrors.openGuard strictly
    have closed := inner.session.closeGuard
      (if (body.run strictly alone.openGuard).failed then .drop else asked)
    have position := closed.position
    have available := closed.available
    have later := next_ih closed strict
    rw [Script.run, Script.run]
    dsimp only
    rw [inner.failed]
    refine ⟨?_, later.failed, later.session⟩
    simp only [Transcript.story, inner.story, position, available, later.story]

/-- A script that begins after a number of bytes tells the same on a copy, or is refused alike. -/
theorem read (mirrors : place.Mirrors alone session) (skipped : Option Nat) (script : Script) :
    (((Command.read skipped script).perform session).reply.story script =
        ((Command.read skipped script).perform alone).reply.story script) ∧
      place.Mirrors ((Command.read skipped script).perform alone).session
        ((Command.read skipped script).perform session).session := by
  cases skipped with
  | none =>
    have ran := mirrors.run false script
    exact ⟨congrArg Sum.inr ran.story, ran.session⟩
  | some count =>
    simp only [Command.perform, Tape.advance, mirrors.holds.available]
    by_cases short : alone.tape.available < count
    · rw [if_pos short, if_pos short]
      exact ⟨rfl, mirrors⟩
    · rw [if_neg short, if_neg short]
      have ran := (mirrors.skip (Nat.le_of_not_lt short)).run false script
      exact ⟨congrArg Sum.inr ran.story, ran.session⟩

end Mirrors

end Placement

/-! ## Windows that hold the same -/

/-- The bytes of the window of a tape alone, read as far. -/
def Tape.alone (tape : Tape) : Tape :=
  ⟨tape.contents.toArray, ⟨0, tape.position, tape.contents.length, 0⟩⟩

/-- Two tapes hold the same bytes in their windows, read as far. -/
structure Tape.Alike (left right : Tape) : Prop where
  /-- The windows hold the same bytes. -/
  contents : left.contents = right.contents
  /-- Reading has come as far in both. -/
  position : left.position = right.position

/-- What is alone is the same for tapes that hold the same. -/
theorem Tape.Alike.alone_eq {left right : Tape} (alike : left.Alike right) :
    left.alone = right.alone := by
  rw [Tape.alone, Tape.alone, alike.contents, alike.position]

/-- Copies of one tape hold the same. -/
theorem Placement.Holds.alike {first second : Placement} {alone left right : Tape}
    (held_left : first.Holds alone left) (held_right : second.Holds alone right) :
    left.Alike right :=
  ⟨held_left.contents.trans held_right.contents.symm,
    held_left.position.trans held_right.position.symm⟩

/-- The bytes of a window alone are sound. -/
theorem Tape.Sound.alone {tape : Tape} (sound : tape.Sound) : tape.alone.Sound := by
  have ⟨ordered, reached, inside⟩ := sound.valid
  have length := Tape.length_contents sound.valid
  have indexed := sound.indexed
  refine ⟨⟨Nat.zero_le _, ?_, ?_⟩, ?_⟩
  · simp only [Tape.alone, length, Tape.position, Window.position]
    omega
  · simp only [Tape.alone, List.size_toArray, Nat.le_refl]
  · simp only [Tape.alone, List.size_toArray, length]
    omega

/-- A sound tape is a copy of the bytes of its window alone, placed where the window starts and in
its epoch. -/
theorem Tape.Sound.holds_alone {tape : Tape} (sound : tape.Sound) :
    Placement.Holds ⟨tape.window.start, tape.window.epoch⟩ tape.alone tape := by
  have ⟨ordered, reached, inside⟩ := sound.valid
  have length := Tape.length_contents sound.valid
  refine ⟨sound.alone, sound, ?_, ?_⟩
  · have started : tape.window.start ≤ (tape.bytes.toList.take tape.window.stop).length := by
      rw [List.length_take, Array.length_toList]
      omega
    refine ⟨(tape.bytes.toList.take tape.window.stop).take tape.window.start,
      tape.bytes.toList.drop tape.window.stop, ?_, List.length_take_of_le started⟩
    change _ = _ ++ (tape.contents ++ _)
    rw [Tape.contents_eq sound.valid, ← List.append_assoc, List.take_append_drop,
      List.take_append_drop]
  · have position : tape.window.start + tape.position = tape.window.pos :=
      Nat.add_sub_cancel' ordered
    have stop : tape.window.start + tape.contents.length = tape.window.stop := by omega
    simp only [Placement.window, Tape.alone, position, stop, Nat.add_zero, UInt32.add_zero]

namespace Session

/-- A session that begins to read a sound buffer is a copy of one that reads the bytes of the window
alone. -/
theorem mirrors_alone {buffer : Buffer} (sound : buffer.Sound) :
    Placement.Mirrors ⟨buffer.tape.window.start, buffer.tape.window.epoch⟩
      (ofBuffer (.lent buffer.tape.alone)) (ofBuffer buffer) := by
  have held := sound.tape.holds_alone
  exact ⟨⟨sound.tape.alone, nofun⟩, ⟨sound, nofun⟩, held.bytes, held.window, rfl, rfl⟩

/-- **A reader cannot tell where the bytes of its window are stored.** Two reached buffers may be of
any kinds, with windows that start anywhere, were emptied any number of times and have any bytes
around them. If the windows hold the same bytes and reading has come as far in both, then every
script tells the same on both, answer by answer, and leaves windows that hold the same again, read
as far; so does a script that begins after a number of bytes, and it is refused alike. -/
theorem reading_alike {left right : Session} (reached_left : left.Reached)
    (reached_right : right.Reached) (alike : left.tape.Alike right.tape) :
    (∀ (strict : Bool) (script : Script),
        let run_left := script.run strict (ofBuffer left.buffer)
        let run_right := script.run strict (ofBuffer right.buffer)
        run_left.transcript.story script = run_right.transcript.story script ∧
          run_left.failed = run_right.failed ∧
            run_left.session.tape.Alike run_right.session.tape) ∧
      ∀ (skipped : Option Nat) (script : Script),
        let entry_left := (Command.read skipped script).perform (ofBuffer left.buffer)
        let entry_right := (Command.read skipped script).perform (ofBuffer right.buffer)
        entry_left.reply.story script = entry_right.reply.story script ∧
          entry_left.session.tape.Alike entry_right.session.tape := by
  have mirrors_left := mirrors_alone reached_left.sound.buffer
  have mirrors_right := mirrors_alone reached_right.sound.buffer
  have same : right.buffer.tape.alone = left.buffer.tape.alone := alike.alone_eq.symm
  rw [same] at mirrors_right
  refine ⟨fun strict script => ?_, fun skipped script => ?_⟩
  · have ran_left := mirrors_left.run strict script
    have ran_right := mirrors_right.run strict script
    exact ⟨ran_left.story.trans ran_right.story.symm, ran_left.failed.trans ran_right.failed.symm,
      ran_left.session.holds.alike ran_right.session.holds⟩
  · have ⟨told_left, kept_left⟩ := mirrors_left.read skipped script
    have ⟨told_right, kept_right⟩ := mirrors_right.read skipped script
    exact ⟨told_left.trans told_right.symm, kept_left.holds.alike kept_right.holds⟩

/-- The same window in a growing buffer, after a reset, and in a range of lent bytes, after as many
bytes: under a guard the window is emptied and marks are compared, then the guard is dropped and a
numeral is read. -/
theorem reading_alike_lent_range :
    let growing : Buffer := .growing (.empty 2 16)
    let lent : Buffer := .lent ⟨(Byte.ofAscii "xxxGET /7yy").toArray, .spanning 3 9⟩
    let events : List Event := [.owner (.write (Byte.ofAscii "ab")), .reader .reset,
      .owner (.write (Byte.ofAscii "GET /7")), .reader (.advance 4)]
    let left := (ofBuffer growing).after events
    let right := (ofBuffer lent).after [.reader (.advance 4)]
    let script : Script :=
      .act (.mark "path") (.act (.advance 1) (.guarded true
        (.act .reset (.act (.mark "empty") (.act (.sameMark "path" "empty")
          (.act (.markBytes "path") .done)))) .commit
        (.act .numeral (.act (.markBytes "path") (.act .storage .done)))))
    let run_left := script.run false (ofBuffer left.buffer)
    let run_right := script.run false (ofBuffer right.buffer)
    left.window = ⟨2, 6, 8, 1⟩ ∧ right.window = ⟨3, 7, 9, 0⟩ ∧ left.tape.Alike right.tape ∧
      run_left.transcript.story script = run_right.transcript.story script ∧
        run_left.session.window = ⟨2, 8, 8, 1⟩ ∧ run_right.session.window = ⟨3, 9, 9, 0⟩ := by
  intro growing lent events left right script run_left run_right
  have reached_left : left.Reached :=
    ⟨growing, events, .growing 2 16 (by decide), ⟨rfl, trivial, rfl, trivial, trivial⟩, rfl⟩
  have ranged : Tape.ofRange (Byte.ofAscii "xxxGET /7yy") 3 9 =
      .ok ⟨(Byte.ofAscii "xxxGET /7yy").toArray, .spanning 3 9⟩ := by decide +kernel
  have reached_right : right.Reached :=
    ⟨lent, [.reader (.advance 4)], .range (by decide +kernel) ranged, ⟨trivial, trivial⟩, rfl⟩
  have alike : left.tape.Alike right.tape := ⟨by decide +kernel, by decide +kernel⟩
  have ⟨told, _, _⟩ := (reading_alike reached_left reached_right alike).1 false script
  exact ⟨by decide +kernel, by decide +kernel, alike, told, by decide +kernel, by decide +kernel⟩

end Session

end WireScan
