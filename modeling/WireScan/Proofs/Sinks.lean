import Mathlib.Order.Bounds.Basic
import WireScan.Proofs.Capacity

/-!
# Sinks of a growing buffer

A text may be written to a growing buffer in parts, and bytes may be sent to it. Both come to plain
writes. Two writes are one write of both payloads (`Growing.Sound.write_append`), so parts that are
all accepted leave the buffer as one write of the whole text does
(`Growing.Sound.writeParts_of_fits`), and of other parts the longest run from the first that fits is
written, and nothing of the rest (`Growing.Sound.exists_fitting`). Sending bytes differs from
writing them in the reply alone, also where they are sent until all are there, which takes one round
at most (`Session.sends_iff`). All of this holds where there is something to write
(`Session.sinks_write`): to write nothing moves the end of the window to the end of the bytes, while
a text without parts, and nothing sent until all is there, leave a window that was placed before
that end where it is (`Session.sinks_leave_placed_window`).
-/
namespace WireScan

namespace Growing

variable {buffer next : Growing} {data : List UInt8}

/-! ## Writes in a row -/

/-- A sound growing buffer is as large as its own capacity asks for. -/
theorem Sound.fits_self (sound : buffer.Sound) : buffer.Fits buffer.capacity buffer.size :=
  ⟨Nat.le_refl _, fun _ => rfl, fun above => absurd sound.size_le (Nat.not_le.mpr above)⟩

/-- Writes that leave a sound buffer with the same tape leave it the same, its capacity included. -/
theorem Sound.eq_of_tape {left right : Growing} (sound : buffer.Sound)
    (written : buffer.Writes left) (also : buffer.Writes right) (same : left.tape = right.tape) :
    left = right := by
  have limit : left.limit = right.limit := written.limit_eq.trans also.limit_eq.symm
  have size : left.size = right.size := congrArg (fun tape => tape.bytes.size) same
  have fitted := (written.fits sound.fits_self sound sound.capacity_le).fitted
  rw [limit, size] at fitted
  have capacity := fitted.unique (also.fits sound.fits_self sound sound.capacity_le).fitted
  cases left
  cases same
  cases limit
  cases capacity
  rfl

/-- **Two writes are one write of both payloads,** also where one of them is refused. -/
theorem Sound.write_append (sound : buffer.Sound) (first second : List UInt8) :
    buffer.write (first ++ second) = (buffer.write first).bind (Growing.write second) := by
  by_cases fits : buffer.size + (first ++ second).length ≤ buffer.limit
  · obtain ⟨whole, once, tape_once, -⟩ := sound.write_of_fits fits
    rw [List.length_append, ← Nat.add_assoc] at fits
    obtain ⟨next, before, tape_before, -⟩ := sound.write_of_fits (Nat.le_of_add_right_le fits)
    rw [← size_write before, ← write_limit before] at fits
    obtain ⟨last, after, tape_after, -⟩ := (sound.write before).write_of_fits fits
    have same : last.tape = whole.tape := by
      rw [tape_after, tape_before, tape_once, Tape.append_append]
    rw [once, before, Except.bind, after,
      sound.eq_of_tape (.write before (.write after (.none last))) (.write once (.none whole)) same]
  · rw [sound.write_of_exceeds (Nat.lt_of_not_le fits)]
    cases before : buffer.write first with
    | error fault => rw [(write_eq_error_iff.mp before).2]; rfl
    | ok next =>
      rw [List.length_append, ← Nat.add_assoc, ← size_write before, ← write_limit before] at fits
      exact ((sound.write before).write_of_exceeds (Nat.lt_of_not_le fits)).symm

/-- To write nothing moves the end of the window to the end of the bytes. -/
theorem Sound.write_nothing (sound : buffer.Sound) :
    buffer.write [] = .ok { buffer with
      tape := { buffer.tape with window := { buffer.tape.window with stop := buffer.size } } } := by
  have room : buffer.size + ([] : List UInt8).length ≤ buffer.capacity := sound.size_le
  unfold Growing.write admission
  dsimp only
  rw [if_pos room]
  rfl

/-- After a write, to write nothing changes nothing. -/
theorem Sound.write_nothing_after (sound : buffer.Sound) (accepted : buffer.write data = .ok next) :
    next.write [] = .ok next := by
  have twice := sound.write_append data []
  rw [List.append_nil, accepted] at twice
  exact twice.symm

/-! ## Writes in parts -/

/-- Parts that fit leave a sound buffer as one write of the whole text does, if there are any. -/
theorem Sound.writeParts_of_fits (sound : buffer.Sound) {parts : List String} (some : parts ≠ [])
    (fits : buffer.size + (parts.flatMap Utf8.encode).length ≤ buffer.limit) :
    buffer.write (parts.flatMap Utf8.encode) = .ok (buffer.writeParts parts).buffer := by
  induction parts generalizing buffer with
  | nil => exact absurd rfl some
  | cons part rest ih =>
    rw [List.flatMap_cons, List.length_append, ← Nat.add_assoc] at fits
    obtain ⟨next, taken, -⟩ := sound.write_of_fits (Nat.le_of_add_right_le fits)
    rw [← size_write taken, ← write_limit taken] at fits
    rw [List.flatMap_cons, sound.write_append, Growing.writeParts, taken, Except.bind]
    by_cases last : rest = []
    · subst last
      exact sound.write_nothing_after taken
    · exact ih (sound.write taken) last fits

/-- How many parts of a text, from the first on, keep a buffer within its limit. -/
def Fitting (parts : List String) (buffer : Growing) : Set Nat :=
  {count | count ≤ parts.length ∧
    buffer.size + ((parts.take count).flatMap Utf8.encode).length ≤ buffer.limit}

/-- Parts fit together with one before them when they fit after it was written. -/
theorem succ_mem_fitting {part : String} (taken : buffer.write (Utf8.encode part) = .ok next)
    (rest : List String) (count : Nat) :
    count + 1 ∈ buffer.Fitting (part :: rest) ↔ count ∈ next.Fitting rest := by
  simp only [Fitting, Set.mem_ofPred_eq, List.length_cons, Nat.add_le_add_iff_right,
    List.take_succ_cons, List.flatMap_cons, List.length_append, size_write taken,
    write_limit taken, Nat.add_assoc]

/-- To fit no part there is always room. -/
theorem Sound.zero_mem_fitting (sound : buffer.Sound) (parts : List String) :
    0 ∈ buffer.Fitting parts :=
  ⟨Nat.zero_le _, Nat.le_trans sound.size_le sound.capacity_le⟩

/-- **Of the parts of a text the longest run from the first that fits is written.** By induction on
the parts: the first that is refused ends the run, whatever comes after it. -/
theorem Sound.exists_fitting (sound : buffer.Sound) (parts : List String) :
    ∃ kept, IsGreatest (buffer.Fitting parts) kept ∧
      (buffer.writeParts parts).buffer = (buffer.writeParts (parts.take kept)).buffer := by
  induction parts generalizing buffer with
  | nil => exact ⟨0, ⟨sound.zero_mem_fitting [], fun count fits => fits.1⟩, rfl⟩
  | cons part rest ih =>
    cases taken : buffer.write (Utf8.encode part) with
    | error fault =>
      obtain ⟨⟨-, exceeds⟩, -⟩ := write_eq_error_iff.mp taken
      refine ⟨0, ⟨sound.zero_mem_fitting _, ?_⟩, ?_⟩
      · rintro (_ | count) ⟨-, fits⟩
        · exact Nat.le_refl 0
        · rw [List.take_succ_cons, List.flatMap_cons, List.length_append] at fits
          omega
      · simp only [Growing.writeParts, taken, List.take_zero]
    | ok next =>
      obtain ⟨kept, ⟨fits, longest⟩, same⟩ := ih (sound.write taken)
      refine ⟨kept + 1, ⟨(succ_mem_fitting taken rest kept).mpr fits, ?_⟩, ?_⟩
      · rintro (_ | count) more
        · exact Nat.zero_le _
        · exact Nat.succ_le_succ (longest ((succ_mem_fitting taken rest count).mp more))
      · simp only [Growing.writeParts, taken, List.take_succ_cons]
        exact same

end Growing

/-! ## Sinks -/

/-- An entry with another reply. -/
def Entry.saying (reply : Reply) (entry : Entry) : Entry := { entry with reply }

section

variable {session : Session} {buffer : Growing}

/-- Whatever replies it is given, adding bytes to a sound growing buffer does what a write does, and
replies by whether the bytes keep to the limit. -/
theorem Session.writing_eq (sound : buffer.Sound) (held : session.buffer = .growing buffer)
    (data : List UInt8) (reply : Reply) (refusal : Fault → Reply) :
    session.writing buffer data reply refusal = ((Command.write data).perform session).saying
      (if buffer.size + data.length ≤ buffer.limit then reply else refusal .noRoom) := by
  simp only [Command.perform, held, writing]
  by_cases fits : buffer.size + data.length ≤ buffer.limit
  · obtain ⟨next, accepted, -⟩ := sound.write_of_fits fits
    rw [accepted, if_pos fits, Entry.saying]
  · rw [sound.write_of_exceeds (Nat.lt_of_not_le fits), if_neg fits, Entry.saying]

namespace Command

/-- Sent bytes are written. They are refused as being out of memory. -/
theorem perform_send (held : session.buffer = .growing buffer) (sound : buffer.Sound)
    (data : List UInt8) : (send data).perform session = ((write data).perform session).saying
      (if buffer.size + data.length ≤ buffer.limit then .answer (.count data.length)
        else .refusal (.outOfMemory .noRoom)) := by
  have writes : (send data).perform session =
      session.writing buffer data (.answer (.count data.length)) fun fault =>
        .refusal (.outOfMemory fault) := by
    simp only [perform, held]
  exact writes.trans (Session.writing_eq sound held _ _ _)

/-- So are bytes that are sent until all are there, if there are any. -/
theorem perform_sendAll (held : session.buffer = .growing buffer) (sound : buffer.Sound)
    {data : List UInt8} (some : data ≠ []) :
    (sendAll data).perform session = ((write data).perform session).saying
      (if buffer.size + data.length ≤ buffer.limit then .answer .done
        else .refusal (.outOfMemory .noRoom)) := by
  have writes : (sendAll data).perform session =
      session.writing buffer data (.answer .done) fun fault => .refusal (.outOfMemory fault) := by
    simp only [perform, held, if_neg some]
  exact writes.trans (Session.writing_eq sound held _ _ _)

/-- Nothing sent until all is there changes nothing. -/
theorem perform_sendAll_nil (held : session.buffer = .growing buffer) :
    (sendAll []).perform session = session.replying (.answer .done) := by
  simp only [perform, held, if_true]

/-- A write that the growing buffer accepts leaves it as it then is, and all else alone. -/
theorem session_write {next : Growing} {data : List UInt8} (held : session.buffer = .growing buffer)
    (accepted : buffer.write data = .ok next) :
    ((write data).perform session).session = { session with buffer := .growing next } := by
  simp only [perform, held, Session.writing, accepted]

/-- A text in parts leaves the growing buffer as it is after them, and all else alone. -/
theorem session_format (held : session.buffer = .growing buffer) (parts : List String) :
    ((format parts).perform session).session =
      { session with buffer := .growing (buffer.writeParts parts).buffer } := by
  simp only [perform, held]

/-- Parts of a text that fit leave the session as one write of all of it does, if there are any. -/
theorem session_format_of_fits (held : session.buffer = .growing buffer) (sound : buffer.Sound)
    {parts : List String} (some : parts ≠ [])
    (fits : buffer.size + (parts.flatMap Utf8.encode).length ≤ buffer.limit) :
    ((format parts).perform session).session =
      ((write (parts.flatMap Utf8.encode)).perform session).session := by
  rw [session_format held, session_write held (sound.writeParts_of_fits some fits)]

/-- Of a text in parts the session is left with the longest run from the first that fits. -/
theorem exists_session_format (held : session.buffer = .growing buffer) (sound : buffer.Sound)
    (parts : List String) :
    ∃ kept, IsGreatest (buffer.Fitting parts) kept ∧
      ((format parts).perform session).session = if kept = 0 then session
        else ((write ((parts.take kept).flatMap Utf8.encode)).perform session).session := by
  obtain ⟨kept, greatest, same⟩ := sound.exists_fitting parts
  obtain ⟨among, fits⟩ := greatest.1
  refine ⟨kept, greatest, ?_⟩
  rw [session_format held, same, ← session_format held]
  cases kept with
  | zero => rw [List.take_zero, session_format held, Growing.writeParts, if_pos rfl, ← held]
  | succ kept =>
    have some : parts.take (kept + 1) ≠ [] :=
      List.ne_nil_of_length_eq_add_one (List.length_take_of_le among)
    rw [if_neg (Nat.succ_ne_zero kept), session_format_of_fits held sound some fits]

end Command

/-- Bytes are sent until all are there: as long as some are left they are sent, and so many of them
are there as the reply counts. -/
inductive Session.Sends : List UInt8 → Session → Reply → Session → Prop
  /-- None are left. -/
  | done (session : Session) : Sends [] session (.answer .done) session
  /-- Some are counted, and the others are sent. -/
  | counted {data : List UInt8} {count : Nat} {session last : Session} {reply : Reply}
    (left : data ≠ []) (some : 0 < count)
    (counts : ((Command.send data).perform session).reply = .answer (.count count))
    (later : Sends (data.drop count) ((Command.send data).perform session).session reply last) :
    Sends data session reply last
  /-- They are refused, and no others are sent. -/
  | refused {data : List UInt8} {session : Session} {cause : SinkFault} (left : data ≠ [])
    (refuses : ((Command.send data).perform session).reply = .refusal cause) :
    Sends data session (.refusal cause) ((Command.send data).perform session).session

/-- Nothing is sent in no round. -/
theorem Session.sends_nil_iff {reply : Reply} {last : Session} :
    Sends [] session reply last ↔ reply = .answer .done ∧ last = session := by
  constructor
  · intro sends
    cases sends with
    | done => exact ⟨rfl, rfl⟩
    | counted left => exact absurd rfl left
    | refused left => exact absurd rfl left
  · rintro ⟨rfl, rfl⟩
    exact .done _

/-- Bytes are sent until all are there in one round, since a round counts all of them or is
refused. -/
theorem Session.sends_iff (held : session.buffer = .growing buffer) (sound : buffer.Sound)
    {data : List UInt8} {reply : Reply} {last : Session} :
    Sends data session reply last ↔ reply = ((Command.sendAll data).perform session).reply ∧
      last = ((Command.sendAll data).perform session).session := by
  by_cases none : data = []
  · subst none
    rw [Command.perform_sendAll_nil held]
    exact sends_nil_iff
  have round := Command.perform_send held sound data
  rw [Command.perform_sendAll held sound none]
  by_cases fits : buffer.size + data.length ≤ buffer.limit
  · rw [if_pos fits] at round ⊢
    constructor
    · intro sends
      cases sends with
      | done => exact absurd rfl none
      | counted left some counts later =>
        rw [round] at counts later
        cases counts
        rw [List.drop_length] at later
        exact sends_nil_iff.mp later
      | refused left refuses =>
        rw [round] at refuses
        cases refuses
    · intro replied
      refine .counted none (List.length_pos_iff.mpr none) (congrArg Entry.reply round) ?_
      rw [List.drop_length, round]
      exact sends_nil_iff.mpr replied
  · rw [if_neg fits] at round ⊢
    constructor
    · intro sends
      cases sends with
      | done => exact absurd rfl none
      | counted left some counts later =>
        rw [round] at counts
        cases counts
      | refused left refuses =>
        rw [round] at refuses ⊢
        cases refuses
        exact ⟨rfl, rfl⟩
    · rintro ⟨rfl, rfl⟩
      have refused : Sends data session _ _ := .refused none (congrArg Entry.reply round)
      rwa [round] at refused

end

namespace Session

variable {session : Session} {buffer : Growing}

/-- What comes of what is written in parts or sent to a growing buffer, next to plain writes. -/
structure Sinks (buffer : Growing) (session : Session) : Prop where
  /-- A write says how many bytes it stored, or that there is no room within the limit. -/
  write : ∀ data, ((Command.write data).perform session).reply =
    if buffer.size + data.length ≤ buffer.limit then .answer (.count data.length)
    else .answer (.fault .noRoom)
  /-- A write that passes the limit changes nothing. -/
  refused : ∀ data, buffer.limit < buffer.size + data.length →
    ((Command.write data).perform session).session = session
  /-- A write of nothing moves the end of the window to the end of the bytes, and changes nothing
  else. -/
  nothing : ((Command.write []).perform session).session =
    session.withTape { session.tape with window := { session.window with stop := buffer.size } }
  /-- A text in parts is accepted exactly when all of it keeps to the limit. -/
  format : ∀ parts, ((Command.format parts).perform session).reply =
    if buffer.size + (parts.flatMap Utf8.encode).length ≤ buffer.limit then .answer .done
    else .refusal .formatting
  /-- If it has parts, it then leaves the session as one write of the whole text does. -/
  whole : ∀ parts, parts ≠ [] →
    buffer.size + (parts.flatMap Utf8.encode).length ≤ buffer.limit →
      ((Command.format parts).perform session).session =
        ((Command.write (parts.flatMap Utf8.encode)).perform session).session
  /-- A text without parts changes nothing. -/
  blank : (Command.format []).perform session = session.replying (.answer .done)
  /-- The longest run of parts from the first that keeps to the limit is written, if there is any,
  as one write would, and of the rest nothing. -/
  longest : ∀ parts, ∃ kept, IsGreatest (buffer.Fitting parts) kept ∧
    ((Command.format parts).perform session).session = if kept = 0 then session
      else ((Command.write ((parts.take kept).flatMap Utf8.encode)).perform session).session
  /-- Bytes that are sent are written, and refused as being out of memory. -/
  send : ∀ data, (Command.send data).perform session =
    ((Command.write data).perform session).saying
      (if buffer.size + data.length ≤ buffer.limit then .answer (.count data.length)
        else .refusal (.outOfMemory .noRoom))
  /-- So are bytes that are sent until all are there, if there are any. -/
  sendAll : ∀ data, data ≠ [] → (Command.sendAll data).perform session =
    ((Command.write data).perform session).saying
      (if buffer.size + data.length ≤ buffer.limit then .answer .done
        else .refusal (.outOfMemory .noRoom))
  /-- Nothing sent until all is there changes nothing. -/
  sendNothing : (Command.sendAll []).perform session = session.replying (.answer .done)
  /-- Bytes that are sent until all are there are sent as often as the replies ask for. -/
  rounds : ∀ data reply last, Sends data session reply last ↔
    reply = ((Command.sendAll data).perform session).reply ∧
      last = ((Command.sendAll data).perform session).session

/-- **What is written in parts or sent to a growing buffer is written as plain writes would.** A
text in parts comes to one write of the longest run of its parts that keeps to the limit, and so of
all of them where they all do, and bytes that are sent come to one write of them. Only where there
is nothing to write do they differ: a write of nothing moves the end of the window to the end of the
bytes, where a text without parts and nothing sent until all is there change nothing. -/
theorem sinks_write (reached : session.Reached) (held : session.buffer = .growing buffer) :
    session.Sinks buffer := by
  have sound := reached.sound.growing held
  refine ⟨?write, ?refused, ?nothing, ?format, fun _ => Command.session_format_of_fits held sound,
    ?blank, Command.exists_session_format held sound, Command.perform_send held sound,
    fun _ => Command.perform_sendAll held sound, Command.perform_sendAll_nil held,
    fun _ _ _ => sends_iff held sound⟩
  case write =>
    intro data
    have writes : (Command.write data).perform session =
        session.writing buffer data (.answer (.count data.length)) fun fault =>
          .answer (.fault fault) := by
      simp only [Command.perform, held]
    exact congrArg Entry.reply (writes.trans (writing_eq sound held _ _ _))
  case refused =>
    intro data exceeds
    simp only [Command.perform, held, writing, sound.write_of_exceeds exceeds]
  case nothing =>
    rw [Command.session_write held sound.write_nothing, withTape, window, tape, held]
    rfl
  case format =>
    intro parts
    simp only [Command.perform, held, sound.complete_iff parts]
  case blank =>
    simp only [Command.perform, held, Growing.writeParts, replying]
    rw [← held]
    rfl

/-- Of parts that come after one byte within a limit of six the first two are written, the second
without any byte. The third passes the limit, and the last is left out though it would fit. -/
theorem sinks_write_two_parts :
    let session := (ofBuffer (.growing (.empty 1 6))).after [.owner (.write [97])]
    let parts := ["bc", "", "defg", "h"]
    let last : Growing := ⟨⟨#[97, 98, 99], ⟨0, 0, 3, 0⟩⟩, 4, 6⟩
    session.Sinks ⟨⟨#[97], ⟨0, 0, 1, 0⟩⟩, 1, 6⟩ ∧ (Command.format parts).perform session =
      ⟨.refusal .formatting, { session with buffer := .growing last },
        [.grew 1 4, .writeRefused 7 6]⟩ := by
  intro session parts last
  have reached : session.Reached :=
    ⟨.growing (.empty 1 6), [.owner (.write [97])], .growing 1 6 (by decide), ⟨rfl, trivial⟩, rfl⟩
  exact ⟨sinks_write reached (by decide +kernel), by decide +kernel⟩

/-- **A window that was placed before the end of the bytes stays where nothing is written in parts
or sent until all is there,** and does not where nothing is written at once. -/
theorem sinks_leave_placed_window :
    let session := (ofBuffer (.growing (.empty 4 8))).after
      [.owner (.write [97, 98, 99]), .owner (.place ⟨0, 0, 1, 0⟩)]
    let stops (command : Command) := (command.perform session).session.window.stop
    session.Reached ∧ stops (.write (([] : List String).flatMap Utf8.encode)) = 3 ∧
      stops (.format []) = 1 ∧ stops (.sendAll []) = 1 := by
  intro session stops
  have allowed : (ofBuffer (.growing (.empty 4 8))).Admits
      [.owner (.write [97, 98, 99]), .owner (.place ⟨0, 0, 1, 0⟩)] := ⟨rfl, rfl, trivial⟩
  exact ⟨⟨_, _, .growing 4 8 (by decide), allowed, rfl⟩, by decide +kernel, by decide +kernel,
    by decide +kernel⟩

end Session

end WireScan
