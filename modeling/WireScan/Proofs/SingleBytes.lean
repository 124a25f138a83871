import WireScan.Proofs.Progress
import WireScan.Proofs.Views
import WireScan.Proofs.Wire

/-!
# Reading byte by byte

Bytes are read alike as a whole and one after the other. Reading a number of bytes succeeds exactly
where as many can be taken singly, and then comes to the same (`Session.takes_of_advance`); it may
be done in two goes (`Session.advance_add`). Reading given bytes succeeds exactly where each of them
is read in turn under one guard, and leaves the same session (`Script.exactly_ofBytes`). The script
may stop with bytes of a front already read (`Script.run_ofBytes`), but then the guard puts those
back.
-/
namespace WireScan

variable {session : Session}

namespace Session

/-! ## Reading on over a front -/

/-- After a front of the bytes ahead was read the bytes after it lie ahead, on a sound tape. -/
theorem readTo_front (sound : session.tape.Sound) {front rest : List UInt8}
    (ahead : session.tape.ahead = front ++ rest) :
    (session.readTo (session.window.pos + front.length)).tape.Sound ∧
      (session.readTo (session.window.pos + front.length)).tape.ahead = rest := by
  have stop := window_stop_eq sound.valid
  have suffix : rest <:+ session.tape.ahead := ahead ▸ List.suffix_append front rest
  have left := ahead_readTo sound suffix
  rw [ahead, List.length_append] at stop
  rw [ahead, List.length_append, Nat.add_sub_cancel] at left
  exact ⟨sound_readTo sound (Nat.le_add_right _ _) (by omega), left⟩

/-- Where a number of bytes lies ahead it is read. -/
theorem advance_eq (sound : session.tape.Sound) {count : Nat}
    (enough : count ≤ session.tape.ahead.length) :
    (Action.advance count).perform session =
      ⟨.done, session.readTo (session.window.pos + count), []⟩ := by
  rw [Tape.length_ahead sound.valid] at enough
  have inside : ¬session.tape.available < count := Nat.not_lt.mpr enough
  rw [Action.perform, Tape.advance, if_neg inside, moving, withTape_skip sound enough]

/-- A number of bytes is read exactly where as many lie ahead. -/
theorem advance_iff (sound : session.tape.Sound) (count : Nat) :
    ((Action.advance count).perform session).answer = .done ↔
      count ≤ session.tape.ahead.length := by
  by_cases enough : count ≤ session.tape.ahead.length
  · rw [advance_eq sound enough]
    exact iff_of_true rfl enough
  · have short : session.tape.available < count := by
      rw [← Tape.length_ahead sound.valid]
      exact Nat.lt_of_not_le enough
    rw [Action.perform, Tape.advance, if_pos short]
    apply iff_of_false _ enough
    intro read
    cases read

/-- One byte is taken where one lies ahead. -/
theorem perform_take (sound : session.tape.Sound) :
    Command.take.perform session =
      match session.tape.ahead with
      | [] => session.replying (.answer (.byte none))
      | byte :: _ =>
        ⟨.answer (.byte (some byte)), session.readTo (session.window.pos + 1), []⟩ := by
  have taken := sound.take?_eq
  rw [Tape.peek?_eq sound.valid] at taken
  simp only [Command.perform, taken]
  cases session.tape.ahead <;> rfl

/-! ## Taking bytes -/

/-- The entries of bytes that are taken one after the other. -/
def takes (count : Nat) (session : Session) : List Entry :=
  Command.performAll (List.replicate count .take) session

/-- Every byte asked for is there exactly where as many lie ahead. -/
theorem mem_takes_iff (sound : session.tape.Sound) (count : Nat) :
    (∀ entry ∈ session.takes count, ∃ byte, entry.reply = .answer (.byte (some byte))) ↔
      count ≤ session.tape.ahead.length := by
  induction count generalizing session with
  | zero => exact iff_of_true (fun _ among => nomatch among) (Nat.zero_le _)
  | succ count ih =>
    unfold takes at ih ⊢
    rw [List.replicate_succ, Command.performAll, List.forall_mem_cons, perform_take sound]
    cases ahead : session.tape.ahead with
    | nil =>
      constructor
      · intro taken
        obtain ⟨byte, same⟩ := taken.1
        cases same
      · intro beyond
        cases beyond
    | cons byte rest =>
      have next := readTo_front sound (show session.tape.ahead = [byte] ++ rest from ahead)
      rw [List.length_singleton] at next
      dsimp only
      rw [ih next.1, next.2, List.length_cons, Nat.add_le_add_iff_right]
      exact ⟨And.right, fun others => ⟨⟨byte, rfl⟩, others⟩⟩

/-- The bytes of a front are taken in order, and taking them reads over it. -/
theorem takes_front (sound : session.tape.Sound) {front rest : List UInt8}
    (ahead : session.tape.ahead = front ++ rest) :
    (session.takes front.length).map Entry.reply =
        front.map (fun byte => .answer (.byte (some byte))) ∧
      session.after (List.replicate front.length (.owner .take)) =
        session.readTo (session.window.pos + front.length) := by
  induction front generalizing session with
  | nil => exact ⟨rfl, session.readTo_self.symm⟩
  | cons byte front ih =>
    have next := readTo_front sound (show session.tape.ahead = [byte] ++ (front ++ rest) from ahead)
    rw [List.length_singleton] at next
    have first := perform_take sound
    rw [ahead] at first
    dsimp only [List.cons_append] at first
    have later := ih next.1 next.2
    rw [window_readTo, readTo_readTo, Nat.add_assoc, Nat.add_comm 1] at later
    unfold takes at later ⊢
    rw [List.length_cons, List.replicate_succ, List.replicate_succ, Command.performAll, after,
      Event.apply, first]
    dsimp only
    rw [List.map_cons, List.map_cons, later.1]
    exact ⟨rfl, later.2⟩

/-- **Taking as many bytes singly is reading a number of bytes.** The bytes come in order, and then
the session is the same. -/
theorem takes_of_advance (sound : session.tape.Sound) {count : Nat}
    (read : ((Action.advance count).perform session).answer = .done) :
    ∃ bytes, bytes.length = count ∧
      session.tape.ahead = bytes ++ ((Action.advance count).perform session).session.tape.ahead ∧
      (session.takes count).map Entry.reply =
        bytes.map (fun byte => .answer (.byte (some byte))) ∧
      session.after (List.replicate count (.owner .take)) =
        ((Action.advance count).perform session).session := by
  have enough := (advance_iff sound count).mp read
  have cut := List.length_take_of_le enough
  have parts := (List.take_append_drop count session.tape.ahead).symm
  have left := (readTo_front sound parts).2
  have taken := takes_front sound parts
  rw [cut] at left taken
  rw [advance_eq sound enough]
  exact ⟨_, cut, left.symm ▸ parts, taken.1, taken.2⟩

/-! ## Reading in two goes -/

/-- **A number of bytes is read at once exactly where it is read in two goes,** and both come to the
same. -/
theorem advance_add (sound : session.tape.Sound) (first second : Nat) :
    let step := (Action.advance first).perform session
    let later := (Action.advance second).perform step.session
    let whole := (Action.advance (first + second)).perform session
    (whole.answer = .done ↔ step.answer = .done ∧ later.answer = .done) ∧
      (whole.answer = .done → later.session = whole.session) := by
  intro step later whole
  have all : whole.answer = .done ↔ first + second ≤ session.tape.ahead.length :=
    advance_iff sound (first + second)
  have front : step.answer = .done ↔ first ≤ session.tape.ahead.length := advance_iff sound first
  rw [all, front]
  by_cases enough : first ≤ session.tape.ahead.length
  · have next := readTo_front sound (List.take_append_drop first session.tape.ahead).symm
    rw [List.length_take_of_le enough] at next
    have reached : step.session = session.readTo (session.window.pos + first) :=
      congrArg Step.session (advance_eq sound enough)
    have ended : later.answer = .done ↔ second ≤ session.tape.ahead.length - first := by
      have rest := advance_iff next.1 second
      rw [next.2, List.length_drop, ← reached] at rest
      exact rest
    constructor
    · rw [ended]
      omega
    · intro both
      have rest : second ≤ step.session.tape.ahead.length := by
        rw [reached, next.2, List.length_drop]
        omega
      have last := advance_eq (reached ▸ next.1) rest
      rw [reached, window_readTo, readTo_readTo, Nat.add_assoc, ← reached] at last
      exact congrArg Step.session (last.trans (advance_eq sound both).symm)
  · constructor
    · omega
    · intro both
      omega

end Session

/-! ## Given bytes one after the other -/

namespace Session

/-- A byte that comes next is read. -/
theorem byte_eq (sound : session.tape.Sound) {expected : UInt8} {rest : List UInt8}
    (ahead : session.tape.ahead = expected :: rest) :
    (Action.byte expected .exact).perform session =
      ⟨.done, session.readTo (session.window.pos + 1), []⟩ := by
  have came : (Action.byte expected .exact).perform session = _ :=
    passing_eq sound (Scan.byte expected .exact) fun _ => .done
  have read : Scan.byte expected .exact session.tape.ahead = ⟨.ok (), rest, []⟩ := by
    rw [ahead, Scan.byte, CaseRule.equal, if_pos (beq_self_eq_true _)]
  have passed : session.tape.ahead.length - rest.length = 1 := by
    rw [ahead, List.length_cons, Nat.add_sub_cancel_left]
  rw [came, read, passed]
  rfl

/-- A byte that does not come next is refused, and nothing changes. -/
theorem byte_of_other (sound : session.tape.Sound) {expected : UInt8}
    (other : ¬[expected] <+: session.tape.ahead) :
    ((Action.byte expected .exact).perform session).answer.isFault = true ∧
      ((Action.byte expected .exact).perform session).session = session := by
  have came : (Action.byte expected .exact).perform session = _ :=
    passing_eq sound (Scan.byte expected .exact) fun _ => .done
  match read : Scan.byte expected .exact session.tape.ahead with
  | ⟨.error fault, rest, notes⟩ =>
    constructor
    · rw [came, read]
      rfl
    · apply passing_of_failed sound (Scan.byte_spares expected .exact) _
      exact congrArg Outcome.result read
  | ⟨.ok (), rest, notes⟩ =>
    have next := Scan.byte_gives_iff.mp ⟨notes, read⟩
    exact absurd (next ▸ List.prefix_append [expected] rest) other

/-- Given bytes that come next are read. -/
theorem exactly_eq (sound : session.tape.Sound) {expected : List UInt8}
    (front : expected <+: session.tape.ahead) :
    (Action.exactly expected).perform session =
      ⟨.done, session.readTo (session.window.pos + expected.length), []⟩ := by
  obtain ⟨rest, ahead⟩ := front
  have came : (Action.exactly expected).perform session = _ :=
    passing_eq sound (Scan.exactly expected) fun _ => .done
  have read : Scan.exactly expected session.tape.ahead = ⟨.ok (), rest, []⟩ := by
    rw [← ahead, Scan.exactly_append]
  have passed : session.tape.ahead.length - rest.length = expected.length := by
    rw [← ahead, List.length_append, Nat.add_sub_cancel]
  rw [came, read, passed]
  rfl

/-- Given bytes that do not come next are refused, as too few ahead wherever they are too few, and
nothing changes. -/
theorem exactly_of_other (sound : session.tape.Sound) {expected : List UInt8}
    (other : ¬expected <+: session.tape.ahead) :
    ((Action.exactly expected).perform session).answer =
        .fault (if session.tape.available < expected.length
          then .tooFew expected.length session.tape.available else .mismatch) ∧
      ((Action.exactly expected).perform session).session = session := by
  have came : (Action.exactly expected).perform session = _ :=
    passing_eq sound (Scan.exactly expected) fun _ => .done
  have cause : (Scan.exactly expected session.tape.ahead).result =
      .error (if session.tape.available < expected.length
        then .tooFew expected.length session.tape.available else .mismatch) := by
    rw [Scan.exactly, if_neg fun ahead => other (List.isPrefixOf_iff_prefix.mp ahead),
      Tape.length_ahead sound.valid]
    split <;> rfl
  constructor
  · rw [came, cause]
    rfl
  · exact passing_of_failed sound (Scan.exactly_spares expected) _ cause

end Session

namespace Script

/-- Given bytes, each read on its own. -/
def ofBytes (expected : List UInt8) : Script :=
  expected.foldr (fun byte next => .act (.byte byte .exact) next) .done

/-- Of given bytes that are read one after the other those are read that come next, up to the first
that does not. By induction on the bytes. -/
theorem run_ofBytes (sound : session.tape.Sound) (expected : List UInt8) :
    ∃ read left, expected = read ++ left ∧ read <+: session.tape.ahead ∧
      (∀ byte ∈ left.head?, ¬read ++ [byte] <+: session.tape.ahead) ∧
      ((ofBytes expected).run true session).session =
        session.readTo (session.window.pos + read.length) ∧
      ((ofBytes expected).run true session).failed = !left.isEmpty := by
  induction expected generalizing session with
  | nil => exact ⟨[], [], rfl, List.nil_prefix, nofun, session.readTo_self.symm, rfl⟩
  | cons byte expected ih =>
    rw [ofBytes, List.foldr_cons, ← ofBytes, run]
    dsimp only
    by_cases next : [byte] <+: session.tape.ahead
    · obtain ⟨rest, ahead⟩ := next
      have after := Session.readTo_front sound ahead.symm
      rw [List.length_singleton] at after
      obtain ⟨read, left, parts, front, stops, reached, failed⟩ := ih after.1
      rw [after.2] at front stops
      rw [Session.window_readTo, Session.readTo_readTo, Nat.add_assoc, Nat.add_comm 1] at reached
      have goes : ¬(true = true ∧ Answer.done.isFault = true) := by
        intro stops
        cases stops.2
      rw [Session.byte_eq sound ahead.symm, ← ahead]
      dsimp only
      rw [if_neg goes]
      refine ⟨byte :: read, left, congrArg (byte :: ·) parts, ?_, ?_, reached, failed⟩
      · exact (List.prefix_append_right_inj [byte]).mpr front
      · intro other first longer
        exact stops other first ((List.prefix_append_right_inj [byte]).mp longer)
    · have refused := Session.byte_of_other sound next
      rw [if_pos ⟨rfl, refused.1⟩, refused.2]
      refine ⟨[], byte :: expected, rfl, List.nil_prefix, ?_, session.readTo_self.symm, rfl⟩
      intro other first
      cases first
      exact next

/-- **Given bytes are read exactly where each of them is read in turn** under one guard, and the
session is the same then, also where they are refused: the guard puts back what was read of them. -/
theorem exactly_ofBytes (sound : session.tape.Sound) (expected : List UInt8) (strict : Bool) :
    let inner := (ofBytes expected).run true session.openGuard
    let step := (Action.exactly expected).perform session
    (step.answer = .done ↔ inner.failed = false) ∧
      ((Script.guarded true (ofBytes expected) .commit .done).run strict session).session =
        step.session ∧
      (inner.failed = true → step.answer =
        .fault (if session.tape.available < expected.length
          then .tooFew expected.length session.tape.available else .mismatch)) := by
  intro inner step
  have opened : session.openGuard.tape.Sound := sound
  obtain ⟨read, left, parts, front, stops, reached, failed⟩ := run_ofBytes opened expected
  change inner.session = _ at reached
  change inner.failed = _ at failed
  have closed :
      ((Script.guarded true (ofBytes expected) .commit .done).run strict session).session =
        (inner.session.closeGuard (if inner.failed then .drop else .commit)).1 := rfl
  rw [closed, reached, failed]
  cases left with
  | nil =>
    rw [List.append_nil] at parts
    have whole : step = ⟨.done, session.readTo (session.window.pos + expected.length), []⟩ :=
      Session.exactly_eq sound (parts ▸ front)
    rw [whole, ← parts]
    exact ⟨iff_of_true rfl rfl, Session.commit_readTo _ session, nofun⟩
  | cons byte left =>
    have other : ¬expected <+: session.tape.ahead := by
      intro ahead
      have longer : read ++ [byte] <+: expected := ⟨left, by rw [parts, List.append_assoc]; rfl⟩
      exact stops byte rfl (longer.trans ahead)
    have refused := Session.exactly_of_other sound other
    change step.answer = _ ∧ step.session = _ at refused
    rw [refused.1, refused.2]
    exact ⟨iff_of_false nofun nofun, Session.drop_readTo sound.valid _, fun _ => rfl⟩

end Script

/-! ## Both -/

namespace Session

/-- **Reading in one go agrees with reading byte by byte.** On every reached session a number of
bytes is read exactly where as many single bytes are there to be taken; these are then the bytes
that were read, and the session after them is the same. Two numbers of bytes are read one after the
other exactly where their sum is read, which never happens beyond the largest index, and come to the
same session. Given bytes are read exactly where each of them is read in turn under a guard that is
committed at the end, and the session is the same then, also where they are refused; the refusal is
for too few bytes ahead exactly where they are too few. -/
theorem bulk_agrees_with_single (reached : session.Reached) :
    (∀ count,
        let step := (Action.advance count).perform session
        (step.answer = .done ↔ ∀ entry ∈ session.takes count,
          ∃ byte, entry.reply = .answer (.byte (some byte))) ∧
        (step.answer = .done → ∃ bytes, bytes.length = count ∧
          session.tape.ahead = bytes ++ step.session.tape.ahead ∧
          (session.takes count).map Entry.reply =
            bytes.map (fun byte => .answer (.byte (some byte))) ∧
          session.after (List.replicate count (.owner .take)) = step.session)) ∧
      (∀ first second,
        let step := (Action.advance first).perform session
        let later := (Action.advance second).perform step.session
        let whole := (Action.advance (first + second)).perform session
        (whole.answer = .done ↔ step.answer = .done ∧ later.answer = .done) ∧
        (whole.answer = .done → later.session = whole.session) ∧
        (Index.largest < first + second → ¬(step.answer = .done ∧ later.answer = .done))) ∧
      ∀ expected strict,
        let inner := (Script.ofBytes expected).run true session.openGuard
        let step := (Action.exactly expected).perform session
        (step.answer = .done ↔ inner.failed = false) ∧
        ((Script.guarded true (Script.ofBytes expected) .commit .done).run strict session).session =
          step.session ∧
        (inner.failed = true → step.answer =
          .fault (if session.tape.available < expected.length
            then .tooFew expected.length session.tape.available else .mismatch)) := by
  have sound : session.tape.Sound := reached.sound.buffer.tape
  refine ⟨fun count => ⟨?_, takes_of_advance sound⟩, fun first second => ?_,
    Script.exactly_ofBytes sound⟩
  · exact (advance_iff sound count).trans (mem_takes_iff sound count).symm
  · intro step later whole
    have sum := advance_add sound first second
    refine ⟨sum.1, sum.2, fun beyond both => ?_⟩
    have enough : first + second ≤ session.tape.ahead.length :=
      (advance_iff sound (first + second)).mp (sum.1.mpr both)
    have indexed : session.tape.ahead.length ≤ Index.largest := by
      have bounded : session.window.stop ≤ session.tape.bytes.size := sound.valid.stop_le_length
      have stop := window_stop_eq sound.valid
      have sized := sound.indexed
      omega
    omega

/-- Under a guard, with three bytes ahead, two are taken as they are read, two numbers that pass the
largest index together are not both read, and of given bytes whose second differs nothing stays
read. -/
theorem bulk_agrees_with_single_inside_guard :
    let events : List Event := [.owner (.write [7, 8, 9, 10]), .opened, .reader (.advance 1)]
    let session := (ofBuffer (.growing (.empty 4 16))).after events
    session.after [.owner .take, .owner .take] =
        ((Action.advance 2).perform session).session ∧
      ¬(((Action.advance 2).perform session).answer = .done ∧
        ((Action.advance Index.largest).perform
          ((Action.advance 2).perform session).session).answer = .done) ∧
      ((Script.guarded true (Script.ofBytes [8, 7]) .commit .done).run false session).session =
        session ∧
      ((Action.exactly [8, 7]).perform session).answer = .fault .mismatch := by
  intro events session
  have reached : session.Reached :=
    ⟨.growing (.empty 4 16), events, .growing 4 16 (by decide), ⟨rfl, trivial, trivial, trivial⟩,
      rfl⟩
  obtain ⟨counted, twice, given⟩ := bulk_agrees_with_single reached
  obtain ⟨bytes, -, -, -, taken⟩ := (counted 2).2 (by decide +kernel)
  have parts := given [8, 7] false
  have refused : ((Script.ofBytes [8, 7]).run true session.openGuard).failed = true := by
    decide +kernel
  have answer : ((Action.exactly [8, 7]).perform session).answer = .fault .mismatch :=
    (parts.2.2 refused).trans (by decide +kernel)
  have stays : ((Action.exactly [8, 7]).perform session).session = session := by decide +kernel
  exact ⟨taken, (twice 2 Index.largest).2.2 (by decide), parts.2.1.trans stays, answer⟩

end Session

end WireScan
