import WireScan.Options
import WireScan.Proofs.Stability

/-!
# Reading an input in pieces

What a run shows depends on the bytes of the input and not on the pieces they arrive in, nor on the
room the buffer had at first. A run that reads every byte once comes to what the plain loop does
that writes each piece and scans again all that lies ahead (`Intake.rescan`): both give the verdict
that the bytes read so far and the limit settle (`Intake.verdictAfter`). The limit alone can come
between the input and its verdict, when a piece passes it before the head is settled
(`Intake.Overruns`). Before all that stands the making of the stores, which breaks the run off where
a size is asked for that no store can have (`Options.Fits`).
-/
namespace WireScan

/-- The verdict on an input that ends after the bytes that an answer was given to. -/
def Verdict.ofAnswer : Except Fault (Option Head) → Verdict
  | .ok (some head) => .complete head
  | .ok none => .unfinished
  | .error cause => .fault cause

/-- A run that prints lines and ends well. -/
def Report.printing (lines : List String) : Report :=
  ⟨0, String.join (lines.map (· ++ "\n")), ""⟩

/-- A run that prints nothing and fails with a message. -/
def Report.failing (message : String) : Report := ⟨1, "", s!"Error: {message}\n"⟩

/-- What an answer shows: the lines of the head that was read, or why there is none. -/
def Report.ofAnswer : Except Fault (Option Head) → Report
  | .ok (some head) =>
    .printing (s!"{head.method} {head.target} HTTP/{head.version}" ::
      head.headers.map fun (name, value) => s!"{name}: {value}")
  | .ok none => .failing "input ended inside the request head"
  | .error .noRoom => .failing "buffer capacity exceeded"
  | .error (.tooFew requested available) =>
    .failing s!"insufficient data: requested {requested} bytes, {available} available"
  | .error .mismatch => .failing "no match at current position"
  | .error .outOfBounds => .failing "token refers to a stale window"
  | .error (.badText ⟨index, some length⟩) =>
    .failing s!"invalid UTF-8: invalid utf-8 sequence of {length} bytes from index {index}"
  | .error (.badText ⟨index, none⟩) =>
    .failing s!"invalid UTF-8: incomplete utf-8 byte sequence from index {index}"

/-- The lines of a head make up the text in which it is shown. -/
theorem Head.render_eq (head : Head) :
    head.render = String.join ((s!"{head.method} {head.target} HTTP/{head.version}" ::
      head.headers.map fun (name, value) => s!"{name}: {value}").map (· ++ "\n")) := by
  simp only [render, List.map_cons, List.map_map, String.join_cons]
  rfl

/-- The verdict on an answer shows the answer. -/
theorem Verdict.report_ofAnswer (answer : Except Fault (Option Head)) :
    (Verdict.ofAnswer answer).report = .ofAnswer answer := by
  match answer with
  | .ok (some head) => exact congrArg (Report.mk 0 · "") head.render_eq
  | .ok none => rfl
  | .error .noRoom => rfl
  | .error (.tooFew requested available) => rfl
  | .error .mismatch => rfl
  | .error .outOfBounds => rfl
  | .error (.badText ⟨index, some length⟩) => rfl
  | .error (.badText ⟨index, none⟩) => rfl

/-- No bytes have want of room for an answer. -/
theorem Verdict.ofAnswer_answer_ne_noRoom (data : List UInt8) :
    Verdict.ofAnswer (Head.answer data) ≠ .fault .noRoom := by
  intro same
  rw [Head.answer_eq] at same
  match came : Head.attempt data with
  | .ok (some head) => rw [came] at same; cases same
  | .ok none => rw [came] at same; cases same
  | .error cause =>
    rw [came] at same
    cases same
    cases Head.attempt_faultOfBytes came

namespace Options

/-- A store can have the room that the buffer begins with, and one the room for what one read
brings. -/
structure Fits (options : Options) : Prop where
  /-- The buffer begins with no more room than its limit. -/
  buffer : min (options.size .initialSize) (options.size .maxSize) ≤ 0x7FFFFFFFFFFFFFFF
  /-- A read asks for a byte at the least. -/
  chunk : max 1 (options.size .chunkSize) ≤ 0x7FFFFFFFFFFFFFFF

variable {options : Options}

/-- Where the sizes fit, the pieces that are given are read. -/
theorem Fits.verdictOn_eq (fits : options.Fits) (pieces : List (List UInt8)) :
    options.verdictOn (.ok pieces) =
      Intake.run pieces (.empty (options.size .initialSize) (options.size .maxSize)) .start := by
  have made : options.buffer? =
      some (.empty (options.size .initialSize) (options.size .maxSize)) := if_pos fits.buffer
  have room : options.chunk? = some (max 1 (options.size .chunkSize)) := if_pos fits.chunk
  simp only [verdictOn, made, room]

/-- Where a size does not fit, nothing is read. -/
theorem verdictOn_oversized (exceeds : ¬options.Fits)
    (given : Except Refusal (List (List UInt8))) : options.verdictOn given = .oversized := by
  by_cases buffer : min (options.size .initialSize) (options.size .maxSize) ≤ 0x7FFFFFFFFFFFFFFF
  · have chunk : ¬max 1 (options.size .chunkSize) ≤ 0x7FFFFFFFFFFFFFFF :=
      fun chunk => exceeds ⟨buffer, chunk⟩
    have none : options.chunk? = none := if_neg chunk
    cases made : options.buffer? <;> simp only [verdictOn, none, made]
  · have none : options.buffer? = none := if_neg buffer
    simp only [verdictOn, none]

end Options

namespace Intake

/-- Write the pieces of an input in order and after each one read a head from all that lies ahead,
until there is an answer or the input ends. -/
def rescan : List (List UInt8) → Growing → Verdict
  | [], buffer =>
    match buffer.write [] with
    | .error cause => .fault cause
    | .ok written => .ofAnswer written.tape.readHead.result
  | piece :: rest, buffer =>
    match buffer.write piece with
    | .error cause => .fault cause
    | .ok written =>
      let passage := written.tape.readHead
      match passage.result with
      | .ok none =>
        if piece = [] then .unfinished else rescan rest { written with tape := passage.tape }
      | answer => .ofAnswer answer

/-- The verdict on pieces that come after bytes that are no head yet: that of the first bytes that
have an answer, unless a piece passes the limit before. -/
def verdictAfter (limit : Nat) (read : List UInt8) : List (List UInt8) → Verdict
  | [] => .unfinished
  | piece :: rest =>
    if limit < (read ++ piece).length then .fault .noRoom
    else
      match Head.attempt (read ++ piece) with
      | .ok none => verdictAfter limit (read ++ piece) rest
      | answer => .ofAnswer answer

/-- The buffer stores the given bytes within its limit, its window goes to their end, and reading
stands at the given one of them. -/
structure Holds (limit : Nat) (stored : List UInt8) (pos : Nat) (buffer : Growing) : Prop where
  /-- The buffer is sound. -/
  sound : buffer.Sound
  /-- The limit of the buffer. -/
  limit_eq : buffer.limit = limit
  /-- The bytes that are stored. -/
  bytes_eq : buffer.tape.bytes.toList = stored
  /-- Where reading stands. -/
  pos_eq : buffer.tape.window.pos = pos
  /-- The window ends where the store does. -/
  stop_eq : buffer.tape.window.stop = stored.length

namespace Holds

variable {limit pos : Nat} {stored : List UInt8} {buffer : Growing}

/-- A new growing buffer holds nothing. -/
theorem empty (room : Nat) (indexed : limit ≤ Index.largest) :
    Holds limit [] 0 (.empty room limit) :=
  ⟨Buffer.New.sound (.growing room limit indexed), rfl, rfl, rfl, rfl⟩

/-- The bytes ahead are those from the read position on. -/
theorem ahead_eq (holds : Holds limit stored pos buffer) :
    buffer.tape.ahead = stored.drop pos := by
  rw [Tape.ahead_eq holds.sound.valid, holds.bytes_eq, holds.pos_eq, holds.stop_eq,
    List.take_length]

/-- As many bytes are stored as there are. -/
theorem size_eq (holds : Holds limit stored pos buffer) : buffer.size = stored.length := by
  rw [Growing.size, ← Array.length_toList, holds.bytes_eq]

/-- A piece that keeps to the limit is held after the other bytes. -/
theorem write (holds : Holds limit stored pos buffer) {piece : List UInt8}
    (fits : (stored ++ piece).length ≤ limit) :
    ∃ written, buffer.write piece = .ok written ∧ Holds limit (stored ++ piece) pos written := by
  rw [List.length_append, ← holds.size_eq, ← holds.limit_eq] at fits
  obtain ⟨written, accepted, tape, limited, sound⟩ := holds.sound.write_of_fits fits
  refine ⟨written, accepted, sound, limited.trans holds.limit_eq, ?_, ?_, ?_⟩
  · rw [tape, Tape.toList_append, holds.bytes_eq]
  · rw [tape]
    exact holds.pos_eq
  · rw [tape, List.length_append, ← holds.size_eq]
    exact Tape.size_append piece buffer.tape

/-- Nothing is always taken, and nothing changes by it. -/
theorem write_nil (holds : Holds limit stored pos buffer) :
    ∃ written, buffer.write [] = .ok written ∧ Holds limit stored pos written := by
  have within : stored.length ≤ limit := by
    rw [← holds.size_eq, ← holds.limit_eq]
    exact Nat.le_trans holds.sound.size_le holds.sound.capacity_le
  rw [← List.append_nil stored] at within ⊢
  exact holds.write within

/-- A piece that passes the limit is refused. -/
theorem write_refused (holds : Holds limit stored pos buffer) {piece : List UInt8}
    (exceeds : limit < (stored ++ piece).length) : buffer.write piece = .error .noRoom := by
  rw [List.length_append, ← holds.size_eq, ← holds.limit_eq] at exceeds
  exact holds.sound.write_of_exceeds exceeds

/-- All that lies ahead may be read. -/
theorem skip (holds : Holds limit stored pos buffer) :
    Holds limit stored stored.length
      { buffer with tape := buffer.tape.skip buffer.tape.available } := by
  have whole : (Buffer.growing buffer).Sound := holds.sound
  have sound : buffer.tape.Sound := whole.tape
  have reached := holds.sound.valid.pos_le_stop
  refine ⟨⟨Tape.restore_valid _ _, holds.sound.size_le, holds.sound.capacity_le,
    holds.sound.indexed⟩, holds.limit_eq, holds.bytes_eq, ?_, ?_⟩
  · rw [sound.skip_eq (Nat.le_refl _), ← holds.stop_eq]
    simp only [Tape.available, Window.available]
    omega
  · rw [sound.skip_eq (Nat.le_refl _)]
    exact holds.stop_eq

end Holds

/-- A reader that waits after given bytes goes on with a piece that was written after them as if it
read all bytes anew. -/
theorem Holds.readAll_ahead {limit : Nat} {stored piece : List UInt8} {buffer : Growing}
    (holds : Holds limit (stored ++ piece) stored.length buffer) {reader : Head.Reader}
    (reached : Head.Reader.start.readAll stored = .waiting reader) :
    reader.readAll buffer.tape.ahead = Head.Reader.start.readAll (stored ++ piece) := by
  rw [holds.ahead_eq, List.drop_left, Head.Reader.readAll_append, reached]

/-- A run that was given bytes that are no head yet comes to the verdict on the pieces after
them. -/
theorem run_eq_verdictAfter {limit : Nat} {pieces : List (List UInt8)}
    (filled : ∀ piece ∈ pieces, piece ≠ []) {stored : List UInt8} {buffer : Growing}
    {reader : Head.Reader} (holds : Holds limit stored stored.length buffer)
    (reached : Head.Reader.start.readAll stored = .waiting reader) :
    run pieces buffer reader = verdictAfter limit stored pieces := by
  induction pieces generalizing stored buffer reader with
  | nil =>
    obtain ⟨written, accepted, held⟩ := holds.write_nil
    have read : reader.readAll written.tape.ahead = .waiting reader := by
      rw [held.ahead_eq, List.drop_length]
      rfl
    simp only [run, receive, accepted, read, if_true]
    rfl
  | cons piece rest ih =>
    rw [run, receive, verdictAfter]
    by_cases exceeds : limit < (stored ++ piece).length
    · simp only [holds.write_refused exceeds, if_pos exceeds]
    · obtain ⟨written, accepted, held⟩ := holds.write (Nat.le_of_not_lt exceeds)
      have read := held.readAll_ahead reached
      have answered := Head.Reader.readAll_start (stored ++ piece)
      simp only [accepted, if_neg exceeds]
      match came : Head.Reader.start.readAll (stored ++ piece) with
      | .ended (.ok head) =>
        simp only [came] at answered read
        simp only [read, answered]
        rfl
      | .ended (.error fault) =>
        simp only [came] at answered read
        simp only [read, answered]
        rfl
      | .waiting next =>
        simp only [came] at answered read
        simp only [read, answered, if_neg (filled piece List.mem_cons_self)]
        exact ih (fun later member => filled later (List.mem_cons_of_mem _ member)) held.skip came

/-- Scanning again after every piece comes to the same verdict. -/
theorem rescan_eq_verdictAfter {limit : Nat} {pieces : List (List UInt8)}
    (filled : ∀ piece ∈ pieces, piece ≠ []) {stored : List UInt8} {buffer : Growing}
    (holds : Holds limit stored 0 buffer) (unsettled : Head.attempt stored = .ok none) :
    rescan pieces buffer = verdictAfter limit stored pieces := by
  induction pieces generalizing stored buffer with
  | nil =>
    obtain ⟨written, accepted, held⟩ := holds.write_nil
    have answer : written.tape.readHead.result = .ok none := by
      rw [Tape.readHead_result, held.ahead_eq, List.drop_zero, unsettled]
    simp only [rescan, accepted, answer]
    rfl
  | cons piece rest ih =>
    rw [rescan, verdictAfter]
    by_cases exceeds : limit < (stored ++ piece).length
    · simp only [holds.write_refused exceeds, if_pos exceeds]
    · obtain ⟨written, accepted, held⟩ := holds.write (Nat.le_of_not_lt exceeds)
      have answer : written.tape.readHead.result = Head.attempt (stored ++ piece) := by
        rw [Tape.readHead_result, held.ahead_eq, List.drop_zero]
      simp only [accepted, if_neg exceeds, answer]
      match came : Head.attempt (stored ++ piece) with
      | .ok (some head) => rfl
      | .error fault => rfl
      | .ok none =>
        have still : written.tape.readHead.tape = written.tape :=
          Tape.readHead_tape_of_none fun head found => by
            rw [answer, came] at found
            cases found
        simp only [if_neg (filled piece List.mem_cons_self), still]
        exact ih (fun later member => filled later (List.mem_cons_of_mem _ member)) held came

/-- After bytes that were read, some number of pieces passes the limit, and with any fewer of them
there is no answer yet. -/
def Overruns (limit : Nat) (read : List UInt8) (pieces : List (List UInt8)) : Prop :=
  ∃ count ≤ pieces.length, limit < (read ++ (pieces.take count).flatten).length ∧
    ∀ fewer < count, Head.answer (read ++ (pieces.take fewer).flatten) = .ok none

section Overruns

variable {limit : Nat} {read piece : List UInt8} {pieces rest : List (List UInt8)}

/-- No pieces do not pass a limit that was kept. -/
theorem not_overruns_nil (kept : read.length ≤ limit) : ¬Overruns limit read [] := by
  rintro ⟨count, _, exceeds, _⟩
  rw [List.take_nil, List.flatten_nil, List.append_nil] at exceeds
  omega

/-- Pieces pass the limit with the first of them, or with later ones when the first brings no
answer. -/
theorem overruns_cons_iff (kept : read.length ≤ limit) (unsettled : Head.attempt read = .ok none) :
    Overruns limit read (piece :: rest) ↔
      limit < (read ++ piece).length ∨
        Head.attempt (read ++ piece) = .ok none ∧ Overruns limit (read ++ piece) rest := by
  have later : ∀ count, read ++ ((piece :: rest).take (count + 1)).flatten =
      read ++ piece ++ (rest.take count).flatten := by
    intro count
    rw [List.take_succ_cons, List.flatten_cons, List.append_assoc]
  constructor
  · rintro ⟨count, inside, exceeds, waited⟩
    match count with
    | 0 =>
      rw [List.take_zero, List.flatten_nil, List.append_nil] at exceeds
      omega
    | count + 1 =>
      by_cases first : limit < (read ++ piece).length
      · exact .inl first
      · rw [later] at exceeds
        have more : count ≠ 0 := by
          rintro rfl
          rw [List.take_zero, List.flatten_nil, List.append_nil] at exceeds
          exact first exceeds
        have second := waited 1 (by omega)
        rw [later, List.take_zero, List.flatten_nil, List.append_nil, Head.answer_eq] at second
        refine .inr ⟨second, count, by simpa using inside, exceeds, fun fewer less => ?_⟩
        rw [← later]
        exact waited (fewer + 1) (Nat.succ_lt_succ less)
  · rintro (exceeds | ⟨second, count, inside, exceeds, waited⟩)
    · refine ⟨1, Nat.succ_le_succ (Nat.zero_le _), ?_, fun fewer less => ?_⟩
      · rw [later, List.take_zero, List.flatten_nil, List.append_nil]
        exact exceeds
      · obtain rfl := Nat.lt_one_iff.mp less
        rw [List.take_zero, List.flatten_nil, List.append_nil, Head.answer_eq, unsettled]
    · refine ⟨count + 1, Nat.succ_le_succ inside, ?_, fun fewer less => ?_⟩
      · rw [later]
        exact exceeds
      · match fewer with
        | 0 => rw [List.take_zero, List.flatten_nil, List.append_nil, Head.answer_eq, unsettled]
        | fewer + 1 =>
          rw [later]
          exact waited fewer (Nat.lt_of_succ_lt_succ less)

/-- Bytes that all keep to the limit do not pass it in any pieces. -/
theorem not_overruns_of_fits (fits : (read ++ pieces.flatten).length ≤ limit) :
    ¬Overruns limit read pieces := by
  rintro ⟨count, _, exceeds, _⟩
  have parts := congrArg (fun cut => cut.flatten.length) (List.take_append_drop count pieces)
  simp only [List.flatten_append, List.length_append] at parts exceeds fits
  omega

/-- The verdict is want of room where the pieces pass the limit, and otherwise the answer to all
bytes. It is settled by the first bytes that have an answer, since no later byte changes it. -/
theorem verdictAfter_eq (kept : read.length ≤ limit) (unsettled : Head.attempt read = .ok none) :
    (Overruns limit read pieces → verdictAfter limit read pieces = .fault .noRoom) ∧
      (¬Overruns limit read pieces → verdictAfter limit read pieces =
        .ofAnswer (Head.attempt (read ++ pieces.flatten))) := by
  induction pieces generalizing read with
  | nil =>
    refine ⟨fun overruns => absurd overruns (not_overruns_nil kept), fun _ => ?_⟩
    rw [List.flatten_nil, List.append_nil, unsettled]
    rfl
  | cons piece rest ih =>
    rw [overruns_cons_iff kept unsettled, verdictAfter, List.flatten_cons, ← List.append_assoc]
    by_cases exceeds : limit < (read ++ piece).length
    · rw [if_pos exceeds]
      exact ⟨fun _ => rfl, fun clear => absurd (.inl exceeds) clear⟩
    · rw [if_neg exceeds]
      by_cases waits : Head.attempt (read ++ piece) = .ok none
      · have settled := ih (Nat.le_of_not_lt exceeds) waits
        simp only [waits, exceeds, false_or, true_and]
        exact settled
      · have same := Head.attempt_append waits rest.flatten
        refine ⟨fun overruns => ?_, fun _ => ?_⟩
        · rcases overruns with first | ⟨second, _⟩
          · exact absurd first exceeds
          · exact absurd second waits
        · rw [same]
          match answered : Head.attempt (read ++ piece) with
          | .ok none => exact absurd answered waits
          | .ok (some head) => rfl
          | .error fault => rfl

end Overruns

/-- Every piece that data is read in holds a byte. -/
theorem Source.pieces_filled (chunk read : Nat) (source : Source) (data : List UInt8) :
    ∀ piece ∈ source.pieces chunk read data, piece ≠ [] := by
  fun_induction Source.pieces chunk read source data with
  | case1 => exact fun _ member => absurd member List.not_mem_nil
  | case2 read data some count asked ih =>
    intro piece member
    rcases List.mem_cons.mp member with rfl | later
    · rw [ne_eq, List.take_eq_nil_iff]
      rintro (zero | none)
      · exact absurd zero (Nat.ne_of_gt asked)
      · exact some none
    · exact ih piece later

/-- A run over pieces comes to want of room where they pass the limit, and otherwise to the answer
to all bytes at once. -/
theorem run_start {limit : Nat} (room : Nat) (indexed : limit ≤ Index.largest)
    {pieces : List (List UInt8)} (filled : ∀ piece ∈ pieces, piece ≠ []) :
    (Overruns limit [] pieces → run pieces (.empty room limit) .start = .fault .noRoom) ∧
      (¬Overruns limit [] pieces →
        run pieces (.empty room limit) .start = .ofAnswer (Head.answer pieces.flatten)) := by
  have none_yet : Head.attempt [] = .ok none := rfl
  rw [run_eq_verdictAfter filled (Holds.empty room indexed) rfl, Head.answer_eq]
  exact verdictAfter_eq (Nat.zero_le limit) none_yet

/-- Data within the limit is answered as a whole, in whichever pieces the options read it. -/
theorem verdict_of_opened {options : Options} (fits : options.Fits)
    (indexed : options.size .maxSize ≤ Index.largest) {files : Files} {input data : List UInt8}
    (given : options.opened files input = .ok (.bytes data))
    (short : data.length ≤ options.size .maxSize) :
    options.verdict files input = .ofAnswer (Head.answer data) := by
  let cut := options.source.pieces (options.size .chunkSize) 0 data
  have whole : cut.flatten = data := Source.flatten_pieces _ _ _ _
  have clear : ¬Overruns (options.size .maxSize) [] cut :=
    not_overruns_of_fits (by rw [whole]; exact short)
  have read : options.verdict files input = options.verdictOn (.ok cut) := by
    rw [Options.verdict, given]
    rfl
  rw [read, fits.verdictOn_eq, (run_start _ indexed (Source.pieces_filled _ _ _ _)).2 clear, whole]

/-- **What a run shows is settled by the bytes of its input.** Where stores can have the sizes that
the options ask for, the run ends, however its input is cut into pieces and whatever room the buffer
has at first, and it shows the answer to all bytes at once. The one exception is want of room: it is
the verdict exactly when some pieces together pass the limit while any fewer of them bring no
answer, which never happens to data within the limit. The pieces in which the options read what they
name are such a cut, and scanning again after every piece comes to the same. Where no store can have
one of the sizes nothing is read and the run breaks off. -/
theorem report_run (options : Options) (indexed : options.size .maxSize ≤ Index.largest)
    {pieces : List (List UInt8)} (filled : ∀ piece ∈ pieces, piece ≠ []) :
    let limit := options.size .maxSize
    let verdict := options.verdictOn (.ok pieces)
    (options.Fits →
      (verdict = .fault .noRoom ↔ Overruns limit [] pieces) ∧
        (Overruns limit [] pieces → verdict.report = .failing "buffer capacity exceeded") ∧
        (¬Overruns limit [] pieces → verdict.report = .ofAnswer (Head.answer pieces.flatten)) ∧
        (pieces.flatten.length ≤ limit → ¬Overruns limit [] pieces ∧
          ∀ files input, options.opened files input = .ok (.bytes pieces.flatten) →
            (options.verdict files input).report = verdict.report) ∧
        verdict = rescan pieces (.empty (options.size .initialSize) limit)) ∧
      (¬options.Fits → verdict = .oversized ∧ verdict.report = ⟨101, "", ""⟩) := by
  intro limit verdict
  refine ⟨fun fits => ?_, fun exceeds => ?_⟩
  · have ran : verdict = run pieces (.empty (options.size .initialSize) limit) .start :=
      fits.verdictOn_eq pieces
    obtain ⟨crowded, answered⟩ := run_start (options.size .initialSize) indexed filled
    have none_yet : Head.attempt [] = .ok none := rfl
    have scanned : rescan pieces (.empty (options.size .initialSize) limit) =
        verdictAfter limit [] pieces :=
      rescan_eq_verdictAfter filled (Holds.empty _ indexed) none_yet
    rw [← ran] at crowded answered
    refine ⟨⟨fun refused => ?_, crowded⟩, fun overruns => ?_, fun clear => ?_, fun short => ?_, ?_⟩
    · apply Classical.byContradiction
      intro clear
      exact Verdict.ofAnswer_answer_ne_noRoom pieces.flatten ((answered clear).symm.trans refused)
    · rw [crowded overruns]
      rfl
    · rw [answered clear, Verdict.report_ofAnswer]
    · have clear : ¬Overruns limit [] pieces := not_overruns_of_fits short
      refine ⟨clear, fun files input given => ?_⟩
      rw [verdict_of_opened fits indexed given short, answered clear]
    · rw [scanned, ran]
      exact run_eq_verdictAfter filled (Holds.empty _ indexed) rfl
  · have broken : verdict = .oversized := Options.verdictOn_oversized exceeds _
    exact ⟨broken, congrArg Verdict.report broken⟩

/-- A request in three pieces, one cut inside a line end, is shown as a whole through a buffer
without room at first. With a limit of ten bytes the second piece of it is refused. A method that is
no text is complained of. -/
theorem report_run_three_pieces :
    let pieces := [Byte.ofAscii "GET / HT", Byte.ofAscii "TP/1.1\r",
      Byte.ofAscii "\nHost: h\r\nA:  b\r\n\r\nhi"]
    let broken := [Byte.ofAscii "GE", 0xC3 :: Byte.ofAscii "T / H"]
    let wide : Options := ⟨none, [(.initialSize, 0), (.maxSize, 64)]⟩
    let narrow : Options := ⟨none, [(.initialSize, 0), (.maxSize, 10)]⟩
    (wide.verdictOn (.ok pieces)).report = ⟨0, "GET / HTTP/1.1\nHost: h\nA: b\n", ""⟩ ∧
      (narrow.verdictOn (.ok pieces)).report =
        ⟨1, "", "Error: buffer capacity exceeded\n"⟩ ∧
      (wide.verdictOn (.ok broken)).report =
        ⟨1, "", "Error: invalid UTF-8: invalid utf-8 sequence of 1 bytes from index 2\n"⟩ := by
  intro pieces broken wide narrow
  have filled : ∀ piece ∈ pieces, piece ≠ [] := by decide
  have broken_filled : ∀ piece ∈ broken, piece ≠ [] := by decide
  have wide_fits : wide.Fits := ⟨by decide, by decide⟩
  have narrow_fits : narrow.Fits := ⟨by decide, by decide⟩
  obtain ⟨_, _, answered, clear, _⟩ := (report_run wide (by decide) filled).1 wide_fits
  obtain ⟨_, crowded, _⟩ := (report_run narrow (by decide) filled).1 narrow_fits
  obtain ⟨_, _, complained, broken_clear, _⟩ :=
    (report_run wide (by decide) broken_filled).1 wide_fits
  have overruns : Overruns 10 [] pieces := by
    refine ⟨2, by decide, by decide, fun fewer less => ?_⟩
    match fewer with
    | 0 => rfl
    | 1 => decide +kernel
  refine ⟨?_, ?_, ?_⟩
  · rw [answered (clear (by decide)).1]
    decide +kernel
  · rw [crowded overruns]
    rfl
  · rw [complained (broken_clear (by decide)).1]
    decide +kernel

/-- A whole request within every limit is not shown where the buffer, or the store for what one read
brings, is to have as much room as indices reach. -/
theorem report_run_oversized :
    let request := Byte.ofAscii "GET / HTTP/1.1\r\n\r\n"
    let shown (arguments : List String) :=
      (Options.ofArguments arguments).map fun options =>
        (options.verdict (fun _ => .error ⟨"No such file or directory", 2⟩) request).report
    Report.ofAnswer (Head.answer request) = ⟨0, "GET / HTTP/1.1\n", ""⟩ ∧
      shown ["--initial-size=18446744073709551615", "--max-size=18446744073709551615"] =
        .ok ⟨101, "", ""⟩ ∧
      shown ["--chunk-size", "18446744073709551615"] = .ok ⟨101, "", ""⟩ := by
  decide +kernel

end Intake

end WireScan
