import WireScan.Proofs.Soundness
import WireScan.Script

/-!
# What a reader does to a session

Whatever a reader does, it makes one of few moves (`Session.Move`): an action does
(`Action.perform_move`), and so does the opening and the end of a guard. A move leaves the buffer
as it is but for its window (`Session.Move.keepsStore`), and what every move preserves a whole
script preserves (`Script.run_preserves`). A script ends every guard that it opens; of the guards
that were open before it can disarm the innermost, and does so exactly when it performs that
action itself (`Script.run_guards`).
-/
namespace WireScan

/-- What becomes of the window that is being read. -/
inductive Turn
  /-- It stays the same window, perhaps read further or with more bytes at its end. -/
  | goesOn
  /-- It is emptied, and another window begins. -/
  | renews
  /-- The window of the innermost guard comes back. -/
  | returns
  /-- A guard is opened on it. -/
  | opens
  /-- The innermost guard ends, and perhaps its window comes back. -/
  | closes (returning : Bool)
  /-- It is placed. -/
  | places
deriving DecidableEq, Repr

/-- What becomes of the window by an action. -/
def Action.turn : Action → Turn
  | .reset => .renews
  | .rollBack => .returns
  | _ => .goesOn

/-- The end of a guard brings the window of the innermost guard back. -/
def Session.returning (ending : Ending) (session : Session) : Bool :=
  match session.guards with
  | [] => false
  | guard :: _ => guard.armed && ending == .drop

namespace Session

/-- What a reader can make of a session. -/
inductive Move (session : Session) : Turn → Session → Prop
  /-- Nothing changes. -/
  | looks : Move session .goesOn session
  /-- A mark is taken. -/
  | marks (name : String) :
    Move session .goesOn { session with marks := (name, .ofTape session.tape) :: session.marks }
  /-- Bytes are read. -/
  | reads (count : Nat) (inside : count ≤ session.tape.available) :
    Move session .goesOn (session.withTape (session.tape.skip count))
  /-- The innermost guard is disarmed. -/
  | disarms {guard : Guard} {outer : List Guard} (found : session.guards = guard :: outer) :
    Move session .goesOn { session with guards := { guard with armed := false } :: outer }
  /-- The window is emptied. -/
  | resets : Move session .renews (session.withTape session.tape.reset)
  /-- The window of the innermost guard is put back. -/
  | returns {guard : Guard} {outer : List Guard} (found : session.guards = guard :: outer) :
    Move session .returns (session.rolledBack guard.saved)
  /-- There is no guard whose window could be put back. -/
  | unguarded (none : session.guards = []) : Move session .returns session
  /-- A guard is opened. -/
  | opens : Move session .opens session.openGuard
  /-- The innermost guard ends and leaves the window. -/
  | leaves {guard : Guard} {outer : List Guard} (found : session.guards = guard :: outer) :
    Move session (.closes false) { session with guards := outer }
  /-- The innermost guard ends and puts its window back. -/
  | restores {guard : Guard} {outer : List Guard} (found : session.guards = guard :: outer) :
    Move session (.closes true)
      (({ session with guards := outer } : Session).rolledBack guard.saved)
  /-- There is no guard to end. -/
  | unopened (none : session.guards = []) : Move session (.closes false) session

end Session

/-- As many bytes as lie ahead are available. -/
theorem Tape.length_ahead_le (tape : Tape) : tape.ahead.length ≤ tape.available := by
  unfold Tape.ahead Tape.slice? Tape.available Window.available
  split
  · rename_i inside
    have cut : (tape.bytes.extract tape.window.pos tape.window.stop).toList.length =
        tape.window.stop - tape.window.pos := by
      rw [Array.length_toList, Array.size_extract, Nat.min_eq_left inside.2]
    exact Nat.le_of_eq cut
  · exact Nat.zero_le _

namespace Session

variable {session : Session}

/-- A scan reads some of the bytes ahead. -/
theorem passing_move {α : Type} (scan : Scan α) (answer : α → Answer) :
    session.Move .goesOn (session.passing (session.tape.scan scan) answer).session := by
  have inside : session.tape.ahead.length - (scan session.tape.ahead).rest.length ≤
      session.tape.available := Nat.le_trans (Nat.sub_le _ _) session.tape.length_ahead_le
  exact .reads _ inside

/-- An attempt at a head reads it, or nothing. -/
theorem readHead_move (answer : Option Head → Answer) :
    session.Move .goesOn (session.passing session.tape.readHead answer).session := by
  have scanned : session.Move .goesOn
      (session.passing (session.tape.scan Head.scan) fun _ => .done).session := passing_move _ _
  have stayed : session.Move .goesOn (session.withTape session.tape) := by
    rw [withTape, tape, Buffer.withTape_tape]
    exact .looks
  unfold passing Tape.readHead at *
  match read : session.tape.scan Head.scan with
  | ⟨.ok head, reached, notes⟩ =>
    rw [read] at scanned
    exact scanned
  | ⟨.error fault, reached, notes⟩ =>
    dsimp only
    split
    · exact stayed
    · exact stayed

end Session

/-- An action is a move of its turn. -/
theorem Action.perform_move (action : Action) (session : Session) :
    session.Move action.turn (action.perform session).session := by
  cases action with
  | advance count =>
    unfold perform Session.moving Tape.advance
    dsimp only
    split <;> rename_i moved
    · split at moved
      · cases moved
      · rename_i enough
        cases moved
        exact .reads count (Nat.le_of_not_lt enough)
    · exact .looks
  | reset => exact .resets
  | exactly expected => exact Session.passing_move _ _
  | byte expected rule => exact Session.passing_move _ _
  | upTo stops rule => exact Session.passing_move _ _
  | numeral => exact Session.passing_move _ _
  | head => exact Session.readHead_move _
  | mark name => exact .marks name
  | rollBack =>
    unfold perform
    dsimp only
    split
    · rename_i none
      exact .unguarded none
    · rename_i guard outer found
      exact .returns found
  | disarm =>
    unfold perform
    dsimp only
    split
    · exact .looks
    · rename_i guard outer found
      exact .disarms found
  | _ => exact .looks

namespace Session

variable {session : Session}

/-- Where no guard is open none ends. -/
theorem closeGuard_nil (none : session.guards = []) (ending : Ending) :
    session.closeGuard ending = (session, []) := by
  simp only [closeGuard, none]

/-- The innermost guard ends and, armed and dropped, puts its window back. -/
theorem closeGuard_cons {guard : Guard} {outer : List Guard}
    (found : session.guards = guard :: outer) (ending : Ending) :
    (session.closeGuard ending).1 =
      if guard.armed ∧ ending = .drop then
        ({ session with guards := outer } : Session).rolledBack guard.saved
      else { session with guards := outer } := by
  simp only [closeGuard, found]
  split <;> rfl

/-- The end of a guard is a move. -/
theorem closeGuard_move (ending : Ending) (session : Session) :
    session.Move (.closes (session.returning ending)) (session.closeGuard ending).1 := by
  cases found : session.guards with
  | nil =>
    rw [closeGuard_nil found, returning, found]
    exact .unopened found
  | cons guard outer =>
    rw [closeGuard_cons found, returning, found]
    dsimp only
    by_cases back : guard.armed ∧ ending = .drop
    · rw [if_pos back, back.1, back.2]
      exact .restores found
    · have stays : (guard.armed && ending == .drop) = false := by
        rw [← Bool.not_eq_true, Bool.and_eq_true, beq_iff_eq]
        exact back
      rw [if_neg back, stays]
      exact .leaves found

/-! ## The store under moves -/

/-- Of the buffer nothing but the window changes. -/
def KeepsStore (before after : Session) : Prop :=
  ∃ window, after.buffer = before.buffer.withTape { before.tape with window }

namespace KeepsStore

/-- What does not change keeps the store. -/
theorem of_buffer_eq {before after : Session} (same : after.buffer = before.buffer) :
    before.KeepsStore after := by
  refine ⟨before.window, ?_⟩
  change after.buffer = before.buffer.withTape before.buffer.tape
  rw [Buffer.withTape_tape, same]

/-- Another window keeps the store. -/
theorem of_window (before : Session) (window : Window) :
    before.KeepsStore (before.withTape (before.tape.restore window)) := ⟨_, rfl⟩

/-- The bytes are the same in a kept store. -/
theorem bytes_eq {before after : Session} (kept : before.KeepsStore after) :
    after.tape.bytes = before.tape.bytes := by
  obtain ⟨window, moved⟩ := kept
  rw [tape, moved, Buffer.tape_withTape]

/-- A store that is kept twice is kept. -/
theorem trans {first second third : Session} (before : first.KeepsStore second)
    (after : second.KeepsStore third) : first.KeepsStore third := by
  have same := before.bytes_eq
  obtain ⟨_, left⟩ := before
  obtain ⟨window, right⟩ := after
  refine ⟨window, ?_⟩
  rw [right, left, Buffer.withTape_withTape]
  dsimp only
  rw [same]

/-- Of a kept store the first window makes the first buffer. -/
theorem restore_buffer {before after : Session} (kept : before.KeepsStore after)
    (valid : before.tape.Valid) :
    after.buffer.withTape (after.tape.restore before.window) = before.buffer := by
  have within : before.window.Within after.tape.bytes.size := kept.bytes_eq ▸ valid
  have back : after.tape.restore before.window = before.tape := by
    rw [Tape.restore_eq within, kept.bytes_eq]
    rfl
  obtain ⟨_, moved⟩ := kept
  rw [back, moved, Buffer.withTape_withTape]
  exact Buffer.withTape_tape before.buffer

end KeepsStore

/-- Every move keeps the store. -/
theorem Move.keepsStore {turn : Turn} {before after : Session} (moved : before.Move turn after) :
    before.KeepsStore after := by
  cases moved with
  | reads count _ => exact .of_window before _
  | resets => exact .of_window before _
  | returns _ => exact .of_window before _
  | restores _ => exact .of_window before _
  | _ => exact .of_buffer_eq rfl

end Session

/-! ## Scripts -/

namespace Script

/-- What every move preserves a whole script preserves. -/
theorem run_preserves {kept : Session → Prop}
    (moves : ∀ turn before after, kept before → before.Move turn after → kept after)
    (strict : Bool) (script : Script) {session : Session} (holds : kept session) :
    kept (script.run strict session).session := by
  induction script generalizing strict session with
  | done => exact holds
  | act action next ih =>
    have acted := moves _ _ _ holds (action.perform_move session)
    rw [run]
    dsimp only
    split
    · exact acted
    · exact ih strict acted
  | guarded strictly body asked next body_ih next_ih =>
    have opened := moves _ _ _ holds .opens
    have ran := body_ih strictly opened
    exact next_ih strict (moves _ _ _ ran (Session.closeGuard_move _ _))

/-- A script keeps the store. -/
theorem run_keepsStore (strict : Bool) (script : Script) (session : Session) :
    session.KeepsStore (script.run strict session).session :=
  script.run_preserves (fun _ _ _ kept moved => kept.trans moved.keepsStore) strict
    (Session.KeepsStore.of_buffer_eq rfl)

/-- The session after a guarded stretch, which ends its guard as asked unless it failed. -/
def closing (strict : Bool) (body : Script) (asked : Ending) (session : Session) : Session :=
  let inner := body.run strict session.openGuard
  (inner.session.closeGuard (if inner.failed then .drop else asked)).1

/-- The actions that a script performs under the guard it runs under, in order. Those of guarded
stretches inside it are performed under guards of their own. -/
def performed (strict : Bool) : Script → Session → List Action
  | .done, _ => []
  | .act action next, session =>
    let step := action.perform session
    if strict ∧ step.answer.isFault then [action]
    else action :: next.performed strict step.session
  | .guarded strictly body asked next, session =>
    next.performed strict (closing strictly body asked session)

/-- A script with a guarded stretch runs on after it. -/
theorem run_guarded (strict strictly : Bool) (body : Script) (asked : Ending) (next : Script)
    (session : Session) :
    ((Script.guarded strictly body asked next).run strict session).session =
      (next.run strict (closing strictly body asked session)).session := rfl

end Script

/-- The guard after actions under it: disarmed if one of them disarms it. -/
def Guard.after (actions : List Action) (guard : Guard) : Guard :=
  { guard with armed := guard.armed && !actions.contains .disarm }

/-- A guard stays as it is where nothing was done. -/
theorem Guard.after_nil : Guard.after [] = id := by
  funext guard
  simp [Guard.after]

/-- Actions may be counted in one after the other. -/
theorem Guard.after_cons (action : Action) (later : List Action) :
    Guard.after (action :: later) = Guard.after later ∘ Guard.after [action] := by
  funext guard
  simp [Guard.after, Bool.and_assoc]

/-- Of the open guards an action changes at most the innermost, and only by disarming it. -/
theorem Action.perform_guards (action : Action) (session : Session) :
    (action.perform session).session.guards =
      session.guards.modifyHead (Guard.after [action]) := by
  by_cases disarms : action = .disarm
  · subst disarms
    unfold perform
    dsimp only
    cases found : session.guards with
    | nil => exact found
    | cons guard outer => simp [Guard.after]
  · have same : Guard.after [action] = id := by
      funext guard
      simp [Guard.after, Ne.symm disarms]
    rw [same, List.modifyHead_id, id]
    cases action with
    | disarm => exact absurd rfl disarms
    | advance count =>
      unfold perform Session.moving
      dsimp only
      split <;> rfl
    | rollBack =>
      unfold perform
      dsimp only
      split <;> rfl
    | _ => rfl

/-- The end of a guard ends the innermost and leaves the others. -/
theorem Session.closeGuard_guards (ending : Ending) (session : Session) :
    (session.closeGuard ending).1.guards = session.guards.tail := by
  cases found : session.guards with
  | nil =>
    rw [closeGuard_nil found]
    exact found
  | cons guard outer =>
    rw [closeGuard_cons found]
    split <;> rfl

namespace Script

/-- Of the guards that were open a script changes at most the innermost, by disarming it. By
induction on the script: the guard of a stretch inside it is gone when the stretch is over. -/
theorem run_guards (strict : Bool) (script : Script) (session : Session) :
    (script.run strict session).session.guards =
      session.guards.modifyHead (Guard.after (script.performed strict session)) := by
  induction script generalizing strict session with
  | done =>
    rw [performed, Guard.after_nil, List.modifyHead_id]
    rfl
  | act action next ih =>
    rw [run, performed]
    dsimp only
    split
    · exact action.perform_guards session
    · rw [ih, action.perform_guards session, List.modifyHead_modifyHead, ← Guard.after_cons]
  | guarded strictly body asked next body_ih next_ih =>
    have ended : (closing strictly body asked session).guards = session.guards := by
      rw [closing, Session.closeGuard_guards, body_ih]
      rfl
    rw [run_guarded, next_ih, ended]
    rfl

/-- After a guarded stretch the guards are those that were open before it. -/
theorem closing_guards (strict : Bool) (body : Script) (asked : Ending) (session : Session) :
    (closing strict body asked session).guards = session.guards := by
  rw [closing, Session.closeGuard_guards, run_guards]
  rfl

end Script

end WireScan
