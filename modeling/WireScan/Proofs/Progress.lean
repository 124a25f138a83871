import WireScan.Proofs.Answers
import WireScan.Proofs.Rollback

/-!
# Reading forward, or not at all

What a reader asks for is read as a whole or not at all: an action that fails leaves the session as
it was, and so does a command (`Action.perform_of_fails`, `Command.perform_of_fails`). There are two
exceptions. A scan for a stop byte that meets none passes over all bytes, and a text written in
parts stays as far as it was accepted. An action that reads moves the read position forward inside
the window and changes nothing else (`Session.ReadsOn`), so over any number of them what was read of
the window and what lies ahead stay the same number of bytes together.
-/
namespace WireScan

/-- The action came to nothing: it was refused, or the head it asks for is not there yet. -/
def Answer.fails : Answer → Bool
  | .fault _ | .headIncomplete => true
  | _ => false

/-- The command came to nothing. -/
def Reply.fails : Reply → Bool
  | .answer value => value.fails
  | .refusal _ => true
  | _ => false

/-- The action reads bytes, if they are what it asks for. -/
def Action.Reads : Action → Prop
  | .advance _ | .exactly _ | .byte _ _ | .upTo _ _ | .numeral | .head => True
  | _ => False

/-! ## Scans that leave everything -/

/-- Where the scan fails it leaves all bytes ahead. -/
def Scan.Spares {α : Type} (scan : Scan α) : Prop :=
  ∀ input fault, (scan input).result = .error fault → (scan input).rest = input

namespace Scan

/-- Given bytes are read as a whole or not at all. -/
theorem exactly_spares (expected : List UInt8) : (exactly expected).Spares := by
  intro input fault failed
  unfold exactly at failed ⊢
  split at failed <;> rename_i ahead
  · cases failed
  · rw [if_neg ahead]
    split <;> rfl

/-- One byte is read or not at all. -/
theorem byte_spares (expected : UInt8) (rule : CaseRule) : (byte expected rule).Spares := by
  intro input fault failed
  cases input with
  | nil => rfl
  | cons next rest =>
    rw [byte] at failed ⊢
    split at failed <;> rename_i equal
    · cases failed
    · rw [if_neg equal]

/-- A scan for a stop byte that meets none leaves nothing. -/
theorem upTo_rest_of_failed {stops : StopSet} {rule : CaseRule} {input : List UInt8} {fault : Fault}
    (failed : (upTo stops rule input).result = .error fault) :
    (upTo stops rule input).rest = [] := by
  unfold upTo at failed ⊢
  split at failed
  · rfl
  · cases failed

end Scan

/-- A numeral is read as a whole or not at all. -/
theorem Numeral.scan_spares : Numeral.scan.Spares := by
  intro input fault failed
  unfold Numeral.scan at failed ⊢
  split at failed
  · cases failed
  · rfl

/-! ## The read position -/

namespace Session

variable {session : Session}

/-- The session with another read position. -/
def readTo (pos : Nat) (session : Session) : Session :=
  session.withTape { session.tape with window := { session.window with pos } }

/-- The read position that there is changes nothing. -/
theorem readTo_self (session : Session) : session.readTo session.window.pos = session := by
  rw [readTo, withTape]
  exact congrArg (fun buffer => { session with buffer }) session.buffer.withTape_tape

/-- Of two read positions the later one stays. -/
theorem readTo_readTo (first second : Nat) (session : Session) :
    (session.readTo first).readTo second = session.readTo second := by
  simp only [readTo, withTape, tape, Session.window, Buffer.tape_withTape,
    Buffer.withTape_withTape]

/-- The window with another read position. -/
theorem window_readTo (pos : Nat) (session : Session) :
    (session.readTo pos).window = { session.window with pos } := by
  rw [readTo, Session.window, withTape, tape, Buffer.tape_withTape]

/-- The tape with another read position. -/
theorem tape_readTo (pos : Nat) (session : Session) :
    (session.readTo pos).tape = { session.tape with window := { session.window with pos } } := by
  rw [readTo, withTape, Session.tape, Buffer.tape_withTape]

/-- The window stops after the bytes ahead. -/
theorem window_stop_eq (valid : session.tape.Valid) :
    session.window.stop = session.window.pos + session.tape.ahead.length := by
  have reached : session.window.pos ≤ session.window.stop := valid.pos_le_stop
  have whole : session.tape.ahead.length = session.window.stop - session.window.pos :=
    Tape.length_ahead valid
  omega

/-- Reading on leaves as many bytes as lie between the new position and the stop. -/
theorem available_readTo (pos : Nat) (session : Session) :
    (session.readTo pos).tape.available = session.window.stop - pos := by
  rw [tape_readTo]
  rfl

/-- Reading on inside the window keeps the tape sound. -/
theorem sound_readTo (sound : session.tape.Sound) {pos : Nat} (further : session.window.pos ≤ pos)
    (inside : pos ≤ session.window.stop) : (session.readTo pos).tape.Sound := by
  obtain ⟨⟨ordered, reached, bounded⟩, indexed⟩ := sound
  rw [tape_readTo]
  exact ⟨⟨Nat.le_trans ordered further, inside, bounded⟩, indexed⟩

/-- What a scan leaves lies ahead after it. -/
theorem ahead_readTo (sound : session.tape.Sound) {rest : List UInt8}
    (suffix : rest <:+ session.tape.ahead) :
    (session.readTo (session.window.pos + (session.tape.ahead.length - rest.length))).tape.ahead =
      rest := by
  have inside : session.tape.ahead.length - rest.length ≤ session.tape.available := by
    rw [← Tape.length_ahead sound.valid]
    exact Nat.sub_le _ _
  rw [tape_readTo]
  exact (Tape.ahead_further sound.valid inside).trans (List.suffix_iff_eq_drop.mp suffix).symm

/-- The window put back undoes a reading. -/
theorem rolledBack_readTo (valid : session.tape.Valid) (pos : Nat) :
    (session.readTo pos).rolledBack session.window = session := by
  have back : (session.readTo pos).tape.restore session.window = session.tape := by
    rw [tape_readTo]
    exact Tape.restore_eq valid
  rw [rolledBack, back, readTo, withTape, withTape, Buffer.withTape_withTape]
  exact congrArg (fun buffer => { session with buffer }) session.buffer.withTape_tape

/-- A guard that is dropped undoes a reading under it. -/
theorem drop_readTo (valid : session.tape.Valid) (pos : Nat) :
    ((session.openGuard.readTo pos).closeGuard .drop).1 = session := by
  rw [closeGuard_cons rfl, if_pos ⟨rfl, rfl⟩]
  exact rolledBack_readTo valid pos

/-- A guard that is committed keeps a reading under it. -/
theorem commit_readTo (pos : Nat) (session : Session) :
    ((session.openGuard.readTo pos).closeGuard .commit).1 = session.readTo pos := rfl

/-- Only the read position changed, and it went forward inside the window or stayed. -/
def ReadsOn (before after : Session) : Prop :=
  ∃ pos, before.window.pos ≤ pos ∧ pos ≤ before.window.stop ∧ after = before.readTo pos

namespace ReadsOn

/-- Nothing is read where nothing changes. -/
theorem refl (valid : session.tape.Valid) : session.ReadsOn session :=
  ⟨session.window.pos, Nat.le_refl _, valid.pos_le_stop, session.readTo_self.symm⟩

/-- Reading on twice is reading on. -/
theorem trans {first second third : Session} (before : first.ReadsOn second)
    (after : second.ReadsOn third) : first.ReadsOn third := by
  obtain ⟨middle, reached, -, rfl⟩ := before
  obtain ⟨pos, further, inside, rfl⟩ := after
  rw [window_readTo] at further inside
  exact ⟨pos, Nat.le_trans reached further, inside, readTo_readTo _ _ _⟩

/-- The position grows or stays. -/
theorem position_le {before after : Session} (read : before.ReadsOn after) :
    before.tape.position ≤ after.tape.position := by
  obtain ⟨pos, reached, -, rfl⟩ := read
  have window := before.window_readTo pos
  rw [Tape.position, Tape.position, ← Session.window, ← Session.window, window]
  exact Nat.sub_le_sub_right reached _

/-- What was read and what lies ahead stay as many bytes together. -/
theorem position_add_available {before after : Session} (read : before.ReadsOn after)
    (valid : before.tape.Valid) :
    after.tape.position + after.tape.available =
      before.tape.position + before.tape.available := by
  obtain ⟨pos, reached, inside, rfl⟩ := read
  have window := before.window_readTo pos
  have ordered : before.window.start ≤ before.window.pos := valid.start_le_pos
  rw [Tape.position, Tape.position, Tape.available, Tape.available, ← Session.window,
    ← Session.window, window]
  unfold Window.position Window.available
  dsimp only
  omega

end ReadsOn

/-- Reading a number of bytes on a sound tape moves the read position by them. -/
theorem withTape_skip (sound : session.tape.Sound) {count : Nat}
    (inside : count ≤ session.tape.available) :
    session.withTape (session.tape.skip count) = session.readTo (session.window.pos + count) := by
  rw [sound.skip_eq inside]
  rfl

/-- Reading a number of bytes is reading on. -/
theorem readsOn_skip (sound : session.tape.Sound) {count : Nat}
    (inside : count ≤ session.tape.available) :
    session.ReadsOn (session.withTape (session.tape.skip count)) := by
  refine ⟨session.window.pos + count, Nat.le_add_right _ _, ?_, withTape_skip sound inside⟩
  have reached : session.window.pos ≤ session.window.stop := sound.valid.pos_le_stop
  have inside : count ≤ session.window.stop - session.window.pos := inside
  omega

/-- A scan reads the bytes that it does not leave. -/
theorem passing_session {α : Type} (sound : session.tape.Sound) (scan : Scan α)
    (answer : α → Answer) :
    (session.passing (session.tape.scan scan) answer).session =
      session.readTo (session.window.pos +
        (session.tape.ahead.length - (scan session.tape.ahead).rest.length)) :=
  withTape_skip sound (Nat.le_trans (Nat.sub_le _ _) session.tape.length_ahead_le)

/-- What a scan of a sound session comes to is what it makes of the bytes ahead. -/
theorem passing_eq {α : Type} (sound : session.tape.Sound) (scan : Scan α) (answer : α → Answer) :
    session.passing (session.tape.scan scan) answer =
      ⟨.ofResult (scan session.tape.ahead).result answer,
        session.readTo (session.window.pos +
          (session.tape.ahead.length - (scan session.tape.ahead).rest.length)),
        (scan session.tape.ahead).notes⟩ := by
  rw [← passing_session sound scan answer]
  rfl

/-- A scan reads on. -/
theorem readsOn_passing {α : Type} (sound : session.tape.Sound) (scan : Scan α)
    (answer : α → Answer) :
    session.ReadsOn (session.passing (session.tape.scan scan) answer).session :=
  readsOn_skip sound (Nat.le_trans (Nat.sub_le _ _) session.tape.length_ahead_le)

/-- A scan that leaves everything where it fails leaves the session where it fails. -/
theorem passing_of_failed {α : Type} (sound : session.tape.Sound) {scan : Scan α}
    (spares : scan.Spares) (answer : α → Answer) {fault : Fault}
    (failed : (scan session.tape.ahead).result = .error fault) :
    (session.passing (session.tape.scan scan) answer).session = session := by
  rw [passing_session sound, spares _ _ failed, Nat.sub_self, Nat.add_zero, readTo_self]

end Session

/-! ## Actions -/

/-- A result whose values are no failures fails where it is a fault. -/
theorem Answer.exists_error_of_fails {α : Type} {result : Except Fault α} {answer : α → Answer}
    (failed : (Answer.ofResult result answer).fails = true)
    (succeeds : ∀ value, (answer value).fails = false) : ∃ fault, result = .error fault := by
  cases result with
  | error fault => exact ⟨fault, rfl⟩
  | ok value => exact absurd ((succeeds value).symm.trans failed) nofun

namespace Action

variable {session : Session}

/-- What an action leaves where it fails: everything, but that a scan for a stop byte has read to
the stop of the window. -/
def leaves (session : Session) : Action → Session
  | .upTo _ _ => session.readTo session.window.stop
  | _ => session

/-- An attempt at a head that comes to none leaves the session. -/
theorem head_of_fails (failed : (head.perform session).answer.fails = true) :
    (head.perform session).session = session := by
  have none : ∀ found, session.tape.readHead.result ≠ .ok (some found) := by
    intro found read
    simp only [perform, Session.passing, read] at failed
    cases failed
  simp only [perform, Session.passing, Tape.readHead_tape_of_none none]
  exact session.readTo_self

/-- **An action that fails changes nothing,** but that a scan for a stop byte that meets none passes
over all bytes ahead. -/
theorem perform_of_fails (sound : session.tape.Sound) (action : Action)
    (failed : (action.perform session).answer.fails = true) :
    (action.perform session).session = action.leaves session := by
  cases action with
  | advance count =>
    simp only [perform, Session.moving] at failed ⊢
    cases moved : session.tape.advance count with
    | error fault => rfl
    | ok tape =>
      rw [moved] at failed
      cases failed
  | exactly expected =>
    obtain ⟨fault, cause⟩ := Answer.exists_error_of_fails failed fun _ => rfl
    exact Session.passing_of_failed sound (Scan.exactly_spares expected) _ cause
  | byte expected rule =>
    obtain ⟨fault, cause⟩ := Answer.exists_error_of_fails failed fun _ => rfl
    exact Session.passing_of_failed sound (Scan.byte_spares expected rule) _ cause
  | numeral =>
    obtain ⟨fault, cause⟩ := Answer.exists_error_of_fails failed fun _ => rfl
    exact Session.passing_of_failed sound Numeral.scan_spares _ cause
  | upTo stops rule =>
    obtain ⟨fault, cause⟩ := Answer.exists_error_of_fails failed fun _ => rfl
    have reached : session.window.pos ≤ session.window.stop := sound.valid.pos_le_stop
    have all : session.tape.ahead.length = session.window.stop - session.window.pos :=
      Tape.length_ahead sound.valid
    have passed := Session.passing_session sound (Scan.upTo stops rule) fun _ => .done
    rw [Scan.upTo_rest_of_failed cause, List.length_nil, Nat.sub_zero, all,
      Nat.add_sub_cancel' reached] at passed
    exact passed
  | head => exact head_of_fails failed
  | reset => cases failed
  | mark name => cases failed
  | rollBack =>
    simp only [perform] at failed
    split at failed <;> cases failed
  | disarm =>
    simp only [perform] at failed
    split at failed <;> cases failed
  | _ => rfl

/-- An attempt at a head reads on, over the whole head or not at all. -/
theorem head_readsOn (sound : session.tape.Sound) :
    session.ReadsOn (head.perform session).session := by
  have scanned := Session.readsOn_passing sound Head.scan fun _ => .done
  by_cases failed : (head.perform session).answer.fails = true
  · rw [head_of_fails failed]
    exact .refl sound.valid
  · match read : session.tape.scan Head.scan with
    | ⟨.ok found, reached, notes⟩ =>
      simp only [perform, Session.passing, Tape.readHead, read] at scanned ⊢
      exact scanned
    | ⟨.error fault, reached, notes⟩ =>
      simp only [perform, Session.passing, Tape.readHead, read] at failed
      split at failed <;> exact absurd rfl failed

/-- **An action that reads moves the read position forward and changes nothing else,** whether it
succeeds or fails. -/
theorem Reads.readsOn {action : Action} (reads : action.Reads) (sound : session.tape.Sound) :
    session.ReadsOn (action.perform session).session := by
  cases action with
  | advance count =>
    simp only [perform, Session.moving]
    by_cases short : session.tape.available < count
    · rw [Tape.advance, if_pos short]
      exact .refl sound.valid
    · rw [Tape.advance, if_neg short]
      exact Session.readsOn_skip sound (Nat.le_of_not_lt short)
  | exactly expected => exact Session.readsOn_passing sound _ _
  | byte expected rule => exact Session.readsOn_passing sound _ _
  | upTo stops rule => exact Session.readsOn_passing sound _ _
  | numeral => exact Session.readsOn_passing sound _ _
  | head => exact head_readsOn sound
  | _ => exact reads.elim

end Action

/-! ## Commands -/

namespace Command

/-- A write that fails changes nothing. -/
theorem writing_of_fails {session : Session} {buffer : Growing} {data : List UInt8} {reply : Reply}
    {refusal : Fault → Reply} (taken : reply.fails = false)
    (failed : (session.writing buffer data reply refusal).reply.fails = true) :
    (session.writing buffer data reply refusal).session = session := by
  unfold Session.writing at failed ⊢
  dsimp only at failed ⊢
  split at failed
  · exact absurd (taken.symm.trans failed) nofun
  · rfl

/-- **A command that fails changes nothing,** but that a scan for a stop byte may pass over bytes
and a text written in parts stays as far as it was accepted. -/
theorem perform_of_fails {session : Session} (sound : session.tape.Sound) {command : Command}
    (whole : ∀ parts, command ≠ .format parts)
    (spares : ∀ stops rule, command ≠ .act (.upTo stops rule))
    (failed : (command.perform session).reply.fails = true) :
    (command.perform session).session = session := by
  cases command with
  | act action =>
    have same := action.perform_of_fails sound failed
    cases action with
    | upTo stops rule => exact absurd rfl (spares stops rule)
    | _ => exact same
  | take =>
    simp only [perform] at failed
    split at failed <;> cases failed
  | place window => cases failed
  | inspect => rfl
  | feed data =>
    cases held : session.buffer with
    | fixed buffer =>
      simp only [perform, held] at failed ⊢
      cases fed : buffer.feed data with
      | error fault => rfl
      | ok next =>
        rw [fed] at failed
        cases failed
    | _ => simp only [perform, held]; rfl
  | clear =>
    cases held : session.buffer with
    | lent tape => simp only [perform, held]; rfl
    | _ =>
      simp only [perform, held] at failed
      cases failed
  | read skipped script =>
    cases skipped with
    | none => cases failed
    | some count =>
      simp only [perform] at failed ⊢
      cases moved : session.tape.advance count with
      | error fault => rfl
      | ok tape =>
        rw [moved] at failed
        cases failed
  | format parts => exact absurd rfl (whole parts)
  | flush => cases held : session.buffer <;> simp only [perform, held] <;> rfl
  | sendAll data =>
    cases held : session.buffer with
    | growing buffer =>
      simp only [perform, held] at failed ⊢
      split
      · rfl
      · rename_i something
        rw [if_neg something] at failed
        exact writing_of_fails rfl failed
    | _ => simp only [perform, held]; rfl
  | write | writeOne | send =>
    cases held : session.buffer with
    | growing buffer =>
      simp only [perform, held] at failed ⊢
      exact writing_of_fails rfl failed
    | _ => simp only [perform, held]; rfl

end Command

namespace Session

variable {session : Session}

/-- Any number of actions that read are reading on. -/
theorem Sound.readsOn (sound : session.Sound) {actions : List Action}
    (reads : ∀ action ∈ actions, action.Reads) :
    session.ReadsOn (session.after (actions.map .reader)) := by
  induction actions generalizing session with
  | nil => exact .refl sound.buffer.tape.valid
  | cons action later ih =>
    rw [List.forall_mem_cons] at reads
    exact (reads.1.readsOn sound.buffer.tape).trans
      (ih (sound.move (action.perform_move session)) reads.2)

/-- **What fails changes nothing, and what reads only goes forward.** On every reached session an
action that fails leaves everything as it was, but that a scan for a stop byte has read to the stop
of the window; where no head is read the tape is as a guard leaves it that was open during the scan;
and a command that fails leaves everything as it was, a text written in parts apart. Every action
that reads, whether it succeeds or fails, changes nothing but the read position, and takes it
forward inside the window; so over any number of them the position never falls, and with what lies
ahead it makes up the same number of bytes. -/
theorem reading_whole_and_forward {session : Session} (reached : session.Reached) :
    (∀ action : Action, (action.perform session).answer.fails = true →
        (action.perform session).session = action.leaves session) ∧
      ((∀ head, session.tape.readHead.result ≠ .ok (some head)) →
        session.tape.readHead.tape = session.tape ∧
          session.tape = (session.tape.scan Head.scan).tape.restore session.window) ∧
      (∀ command : Command, (∀ parts, command ≠ .format parts) →
        (∀ stops rule, command ≠ .act (.upTo stops rule)) →
        (command.perform session).reply.fails = true →
        (command.perform session).session = session) ∧
      (∀ action : Action, action.Reads → session.ReadsOn (action.perform session).session) ∧
      ∀ first second : List Action, (∀ action ∈ first ++ second, action.Reads) →
        let earlier := session.after (first.map .reader)
        let later := session.after ((first ++ second).map .reader)
        earlier.tape.position ≤ later.tape.position ∧
          later.tape.position + later.tape.available =
            session.tape.position + session.tape.available := by
  have sound := reached.sound.buffer.tape
  refine ⟨fun action => action.perform_of_fails sound, fun none => ?_,
    fun command => Command.perform_of_fails sound, fun action reads => reads.readsOn sound, ?_⟩
  · have stays := Tape.readHead_tape_of_none none
    exact ⟨stays, stays.symm.trans (Tape.readHead_restores sound.valid none)⟩
  · intro first second reads earlier later
    have read_first : session.ReadsOn earlier :=
      reached.sound.readsOn fun action among => reads action (List.mem_append_left second among)
    have allowed : ∀ (actions : List Action) (begun : Session),
        begun.Admits (actions.map .reader) := by
      intro actions
      induction actions with
      | nil => exact fun _ => trivial
      | cons action others ih => exact fun _ => ⟨trivial, ih _⟩
    have read_second : earlier.ReadsOn later := by
      have next := (reached.sound.after (allowed first session)).readsOn fun action among =>
        reads action (List.mem_append_right first among)
      simp only [later, List.map_append, after_append]
      exact next
    have counted := (read_first.trans read_second).position_add_available sound.valid
    exact ⟨read_second.position_le, counted⟩

/-- Under a guard, on a buffer that has no room for another byte, an unfinished head is left where
it is, a write is refused, and a scan for a byte that is not there reads to the end. -/
theorem reading_whole_and_forward_unfinished_head :
    let text := Byte.ofAscii "GET / HTTP/1.1\r\nA: "
    let events : List Event := [.owner (.write text), .opened, .reader (.advance 1)]
    let session := (ofBuffer (.growing (.empty 4 19))).after events
    (Action.head.perform session).answer = .headIncomplete ∧
      (Action.head.perform session).session = session ∧
      ((Command.writeOne 66).perform session).session = session ∧
      ((Action.upTo (.byte 0) .exact).perform session).session = session.readTo 19 := by
  intro text events session
  have reached : session.Reached :=
    ⟨.growing (.empty 4 19), events, .growing 4 19 (by decide), ⟨rfl, trivial, trivial, trivial⟩,
      rfl⟩
  have incomplete : (Action.head.perform session).answer = .headIncomplete := by decide +kernel
  have ⟨actions, _, commands, _⟩ := reading_whole_and_forward reached
  refine ⟨incomplete, actions .head (by rw [incomplete]; rfl), ?_, ?_⟩
  · exact commands (.writeOne 66) nofun nofun (by decide +kernel)
  · exact actions (.upTo (.byte 0) .exact) (by decide +kernel)

end Session

end WireScan
