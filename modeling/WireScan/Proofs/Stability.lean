import Mathlib.Control.Monad.Basic
import WireScan.Proofs.Answers
import WireScan.Proofs.Soundness

/-!
# Answers that no later byte changes

What a scan came to is final unless it lacked data. A stable scan answers the same over any longer
input wherever its answer was final, and leaves the new bytes after those it left before
(`Scan.Stable`). A sequence of stable scans is stable (`Scan.Stable.bind`), so the scan of a head
is (`Head.scan_stable`). One scan inside a head is not stable by itself: the spaces before a value
may go on in the bytes to come. With the value it is, since no value is found in no bytes
(`Scan.skipWhile_bind_stable`).
-/
namespace WireScan

variable {α β : Type}

/-- A value was read, or a fault was found that more input does not mend. -/
def Outcome.Final (outcome : Outcome α) : Prop :=
  ∀ fault, outcome.result = .error fault → fault.wantsMore = false

/-- The outcome with more bytes after those that were left. -/
def Outcome.extend (more : List UInt8) (outcome : Outcome α) : Outcome α :=
  { outcome with rest := outcome.rest ++ more }

/-- A value is final. -/
theorem Outcome.final_ok (value : α) (rest : List UInt8) (notes : List Note) :
    (Outcome.mk (.ok value) rest notes).Final := by
  intro fault refused
  cases refused

/-- A fault is final unless it lacks data. -/
theorem Outcome.final_error {fault : Fault} {rest : List UInt8} {notes : List Note} :
    (Outcome.mk (.error fault : Except Fault α) rest notes).Final ↔ fault.wantsMore = false := by
  constructor
  · intro final
    exact final fault rfl
  · intro settled other refused
    cases refused
    exact settled

namespace Scan

/-- A final answer stays the answer over every longer input. -/
def Stable (scan : Scan α) : Prop :=
  ∀ input more, (scan input).Final → scan (input ++ more) = (scan input).extend more

/-- A value stays the value over every longer input. -/
theorem Stable.ok {scan : Scan α} (stable : scan.Stable) {input rest : List UInt8} {value : α}
    {notes : List Note} (read : scan input = ⟨.ok value, rest, notes⟩) (more : List UInt8) :
    scan (input ++ more) = ⟨.ok value, rest ++ more, notes⟩ := by
  have longer := stable input more (by rw [read]; exact Outcome.final_ok value rest notes)
  rw [longer, read]
  rfl

/-- Stable scans in sequence are stable. -/
theorem Stable.bind {first : Scan α} {second : α → Scan β} (before : first.Stable)
    (after : ∀ value, (second value).Stable) : (first >>= second).Stable := by
  intro input more final
  match read : first input with
  | ⟨.error fault, rest, notes⟩ =>
    rw [bind_error read] at final ⊢
    have longer : first (input ++ more) = ⟨.error fault, rest ++ more, notes⟩ := by
      have kept := before input more
      rw [read] at kept
      exact kept (Outcome.final_error.mpr (Outcome.final_error.mp final))
    rw [bind_error longer]
    rfl
  | ⟨.ok value, rest, notes⟩ =>
    rw [bind_ok read] at final ⊢
    rw [bind_ok (before.ok read more), after value rest more final]
    rfl

/-- Reading nothing is stable. -/
theorem pure_stable (value : α) : (Pure.pure value : Scan α).Stable := fun _ _ _ => rfl

/-- Failing is stable. -/
theorem fail_stable (fault : Fault) : (fail fault : Scan α).Stable := fun _ _ _ => rfl

/-- Reading one byte is stable: only where no byte lies ahead is the answer open. -/
theorem byte_stable (expected : UInt8) (rule : CaseRule) : (byte expected rule).Stable := by
  intro input more final
  cases input with
  | nil => cases final (.tooFew 1 0) rfl
  | cons next rest =>
    rw [List.cons_append, byte, byte]
    split <;> rfl

/-- Reading given bytes is stable: the answer is open as long as fewer bytes lie ahead. -/
theorem exactly_stable (expected : List UInt8) : (exactly expected).Stable := by
  intro input more final
  have enough : expected.length ≤ input.length := by
    apply Nat.le_of_not_lt
    intro short
    rw [exactly_short short] at final
    cases final _ rfl
  obtain ⟨found, rest, rfl, long⟩ : ∃ found rest, input = found ++ rest ∧
      found.length = expected.length :=
    ⟨input.take expected.length, input.drop expected.length,
      (List.take_append_drop _ _).symm, List.length_take_of_le enough⟩
  rw [List.append_assoc]
  by_cases same : found = expected
  · rw [same, exactly_append, exactly_append]
    rfl
  · rw [exactly_other long same, exactly_other long same, ← List.append_assoc]
    rfl

/-- Bytes up to a stop byte that is there are the same in every longer input. -/
theorem upTo_append {stops : StopSet} {rule : CaseRule} {input bytes rest : List UInt8}
    {notes : List Note} (found : upTo stops rule input = ⟨.ok bytes, rest, notes⟩)
    (more : List UInt8) : upTo stops rule (input ++ more) = ⟨.ok bytes, rest ++ more, notes⟩ := by
  unfold upTo at found ⊢
  rw [List.dropWhile_append, List.takeWhile_append]
  cases left : input.dropWhile (!stops.contains rule ·) with
  | nil => rw [left] at found; cases found
  | cons stop after =>
    rw [left] at found
    cases found
    have parts := congrArg List.length
      (List.takeWhile_append_dropWhile (p := (!stops.contains rule ·)) (l := input))
    rw [left, List.length_append, List.length_cons] at parts
    have shorter : (input.takeWhile (!stops.contains rule ·)).length ≠ input.length := by omega
    simp only [List.isEmpty_cons, if_neg shorter, if_false, Bool.false_eq_true, List.cons_append]

/-- Passing over bytes is stable with a scan after it that comes to nothing final in no bytes. -/
theorem skipWhile_bind_stable {test : UInt8 → Bool} {next : Unit → Scan α}
    (stable : (next ()).Stable) (open_nil : ¬(next () []).Final) :
    (skipWhile test >>= next).Stable := by
  intro input more final
  have passed : ∀ bytes, skipWhile test bytes = ⟨.ok (), bytes.dropWhile test, []⟩ := fun _ => rfl
  rw [bind_ok (passed input)] at final ⊢
  rw [bind_ok (passed (input ++ more)), List.dropWhile_append]
  cases left : input.dropWhile test with
  | nil =>
    rw [left] at final
    exact absurd final open_nil
  | cons first rest =>
    rw [left] at final
    simp only [List.isEmpty_cons, if_false, Bool.false_eq_true]
    rw [stable (first :: rest) more final]
    rfl

end Scan

namespace Head

/-- A field is stable: without its closing byte it lacks data, and with it it is settled. -/
theorem field_stable (close : UInt8) : (field close).Stable := by
  intro input more final
  match found : Scan.upTo (.byte close) .exact input with
  | ⟨.error fault, rest, notes⟩ =>
    have unclosed : field close input = ⟨.error incomplete, rest, notes⟩ := by simp [field, found]
    rw [unclosed] at final
    cases final incomplete rfl
  | ⟨.ok bytes, rest, notes⟩ =>
    have longer := Scan.upTo_append found more
    simp [field, found, longer, Outcome.extend]

/-- A method is stable. -/
theorem methodField_stable : methodField.Stable := by
  refine (field_stable _).bind fun method => ?_
  split
  · exact Scan.fail_stable _
  · exact Scan.pure_stable _

/-- A field with its closing byte is stable. -/
theorem closedField_stable (close : UInt8) : (closedField close).Stable :=
  (field_stable close).bind fun _ =>
    (Scan.byte_stable close .exact).bind fun _ => Scan.pure_stable _

/-- A field with its line end is stable. -/
theorem lastField_stable : lastField.Stable :=
  (field_stable Byte.cr).bind fun _ =>
    (Scan.exactly_stable Byte.lineEnd).bind fun _ => Scan.pure_stable _

/-- A request line is stable. -/
theorem requestLine_stable : requestLine.Stable :=
  methodField_stable.bind fun _ => (Scan.byte_stable _ _).bind fun _ =>
    (closedField_stable _).bind fun _ => (Scan.exactly_stable _).bind fun _ =>
      lastField_stable.bind fun _ => Scan.pure_stable _

/-- A header line is stable. -/
theorem headerLine_stable : headerLine.Stable := by
  refine (closedField_stable _).bind fun name => Scan.skipWhile_bind_stable ?_ ?_
  · exact lastField_stable.bind fun _ => Scan.pure_stable _
  · intro final
    cases final incomplete rfl

/-- A header line, or the empty line in its place, is stable. -/
theorem nextHeader_stable : Scan.Stable nextHeader := by
  intro input more final
  match input with
  | [] => cases final incomplete rfl
  | [_] => cases final incomplete rfl
  | first :: second :: rest =>
    by_cases empty : first = Byte.cr ∧ second = Byte.lf
    · obtain ⟨rfl, rfl⟩ := empty
      rfl
    · have filled : ∀ tail, nextHeader (first :: second :: tail) =
          (some <$> headerLine) (first :: second :: tail) := fun _ => if_neg empty
      have whole : Scan.Stable (some <$> headerLine) :=
        headerLine_stable.bind fun _ => Scan.pure_stable _
      rw [filled] at final ⊢
      rw [List.cons_append, List.cons_append, filled]
      exact whole _ more final

/-- The header lines begin with the next one and go on with those after it. -/
theorem headerLines_eq (input : List UInt8) :
    headerLines input =
      match nextHeader input with
      | ⟨.error fault, rest, notes⟩ => ⟨.error fault, rest, notes⟩
      | ⟨.ok none, rest, notes⟩ => ⟨.ok [], rest, notes⟩
      | ⟨.ok (some header), rest, notes⟩ =>
        ⟨(header :: ·) <$> (headerLines rest).result, (headerLines rest).rest,
          notes ++ (headerLines rest).notes⟩ := by
  rw [headerLines]
  split <;> rename_i read
  · rw [read]
  · rw [read]
  · dsimp only
    rw [read]

/-- Header lines are stable, by induction on the lines that were read. -/
theorem headerLines_stable : Scan.Stable headerLines := by
  intro input more final
  fun_induction headerLines input with
  | case1 input fault rest notes read =>
    have longer : nextHeader (input ++ more) = ⟨.error fault, rest ++ more, notes⟩ := by
      have kept := nextHeader_stable input more
      rw [read] at kept
      exact kept (Outcome.final_error.mpr (Outcome.final_error.mp final))
    rw [headerLines_eq, longer]
    rfl
  | case2 input rest notes read =>
    rw [headerLines_eq, nextHeader_stable.ok read more]
    rfl
  | case3 input header rest notes read shorter later ih =>
    have settled : (headerLines rest).Final := by
      intro fault refused
      refine final fault ?_
      change (header :: ·) <$> (headerLines rest).result = _
      rw [refused]
      rfl
    rw [headerLines_eq, nextHeader_stable.ok read more]
    dsimp only
    rw [ih settled]
    rfl

/-- A head is stable. -/
theorem scan_stable : scan.Stable :=
  requestLine_stable.bind fun _ => headerLines_stable.bind fun _ => Scan.pure_stable _

/-- Only a final answer is a head or a fault. -/
theorem attempt_ne_none_iff {input : List UInt8} :
    attempt input ≠ .ok none ↔ (scan input).Final := by
  unfold attempt Outcome.settled? Outcome.Final
  cases (scan input).result with
  | ok read => simp
  | error fault => by_cases wants : fault.wantsMore <;> simp [wants]

/-- A head or a fault is the answer over every longer input too. -/
theorem attempt_append {input : List UInt8} (answered : attempt input ≠ .ok none)
    (more : List UInt8) : attempt (input ++ more) = attempt input := by
  have longer := scan_stable input more (attempt_ne_none_iff.mp answered)
  unfold attempt Outcome.settled?
  rw [longer]
  rfl

end Head

namespace Tape

/-- Reading a head from the tape gives the head and leaves the tape read that many bytes further. -/
structure ReadsHead (tape : Tape) (head : Head) (count : Nat) : Prop where
  /-- The answer is the head. -/
  result : tape.readHead.result = .ok (some head)
  /-- The read position has moved by the count, and nothing else has changed. -/
  reached : tape.readHead.tape =
    { tape with window := { tape.window with pos := tape.window.pos + count } }

/-- On a sound tape a head is read with as many bytes as the scan of the bytes ahead takes. -/
theorem Sound.readsHead_iff {tape : Tape} (sound : tape.Sound) {head : Head} {count : Nat} :
    tape.ReadsHead head count ↔
      ∃ rest notes, Head.scan tape.ahead = ⟨.ok head, rest, notes⟩ ∧
        tape.ahead.length - rest.length = count := by
  match read : Head.scan tape.ahead with
  | ⟨.error fault, rest, notes⟩ =>
    have refused : tape.readHead.result ≠ .ok (some head) := by
      rw [readHead_result, ne_eq, Head.attempt_eq_some_iff, read]
      nofun
    constructor
    · intro reads
      exact absurd reads.result refused
    · rintro ⟨_, _, same, _⟩
      cases same
  | ⟨.ok found, rest, notes⟩ =>
    have inside : tape.ahead.length - rest.length ≤ tape.available := by
      rw [← length_ahead sound.valid]
      exact Nat.sub_le _ _
    have passage : tape.readHead =
        ⟨.ok (some found), tape.skip (tape.ahead.length - rest.length), notes⟩ := by
      simp only [readHead, Tape.scan, read]
    constructor
    · rintro ⟨result, reached⟩
      rw [passage] at result reached
      cases result
      rw [sound.skip_eq inside] at reached
      simp only [mk.injEq, Window.mk.injEq, true_and, and_true, Nat.add_left_cancel_iff] at reached
      exact ⟨rest, notes, rfl, reached⟩
    · rintro ⟨_, _, same, rfl⟩
      cases same
      exact ⟨by rw [passage], by rw [passage, sound.skip_eq inside]⟩

/-- **No later byte changes what was read from a tape.** Where the bytes ahead are extended, a head
stays the same head of as many bytes and a fault stays the same fault; so where a head is read,
every tape that ends before the head does asks for more. -/
theorem readHead_extended {tape longer : Tape} (sound : tape.Sound) (whole : longer.Sound)
    {more : List UInt8} (extended : longer.ahead = tape.ahead ++ more) :
    (∀ head count, tape.ReadsHead head count → longer.ReadsHead head count) ∧
      (∀ fault, tape.readHead.result = .error fault → longer.readHead.result = .error fault) ∧
      ∀ head count, longer.ReadsHead head count → tape.ahead.length < count →
        tape.readHead.result = .ok none := by
  have read_on : ∀ head count, tape.ReadsHead head count → longer.ReadsHead head count := by
    intro head count reads
    obtain ⟨rest, notes, read, taken⟩ := sound.readsHead_iff.mp reads
    refine whole.readsHead_iff.mpr ⟨rest ++ more, notes, ?_, ?_⟩
    · rw [extended]
      exact Head.scan_stable.ok read more
    · rw [extended, List.length_append, List.length_append, Nat.add_sub_add_right]
      exact taken
  have answered : tape.readHead.result ≠ .ok none →
      longer.readHead.result = tape.readHead.result := by
    rw [readHead_result, readHead_result, extended]
    exact fun settled => Head.attempt_append settled more
  refine ⟨read_on, ?_, ?_⟩
  · intro fault refused
    rw [answered (by rw [refused]; nofun), refused]
  · intro head count reads short
    apply Classical.byContradiction
    intro settled
    -- The shorter tape would give the same head, and so take all the bytes of the longer one.
    have same : tape.readHead.result = .ok (some head) := by
      rw [← answered settled]
      exact reads.result
    rw [readHead_result, Head.attempt_eq_some_iff] at same
    match read : Head.scan tape.ahead with
    | ⟨result, rest, notes⟩ =>
      rw [read] at same
      cases same
      have again := read_on head _ (sound.readsHead_iff.mpr ⟨rest, notes, read, rfl⟩)
      have counts := reads.reached.symm.trans again.reached
      simp only [mk.injEq, Window.mk.injEq, true_and, and_true, Nat.add_left_cancel_iff] at counts
      omega

/-- A request of eighteen bytes is read with two bytes after it, and is asked for where its empty
line is missing. -/
theorem readHead_extended_request :
    let tape := ofBytes (Byte.ofAscii "GET / HTTP/1.1\r\n")
    let longer := ofBytes (Byte.ofAscii "GET / HTTP/1.1\r\n\r\nhi")
    longer.ahead = tape.ahead ++ Byte.ofAscii "\r\nhi" ∧
      longer.ReadsHead ⟨"GET", "/", "1.1", []⟩ 18 ∧ tape.readHead.result = .ok none := by
  intro tape longer
  have sound : tape.Sound := ⟨ofBytes_valid _, by decide⟩
  have whole : longer.Sound := ⟨ofBytes_valid _, by decide⟩
  have extended : longer.ahead = tape.ahead ++ Byte.ofAscii "\r\nhi" := by decide
  have result : (Head.scan longer.ahead).result = .ok ⟨"GET", "/", "1.1", []⟩ := by decide +kernel
  have rest : longer.ahead.length - (Head.scan longer.ahead).rest.length = 18 := by decide +kernel
  have reads : longer.ReadsHead ⟨"GET", "/", "1.1", []⟩ 18 :=
    whole.readsHead_iff.mpr ⟨_, (Head.scan longer.ahead).notes, by rw [← result], rest⟩
  exact ⟨extended, reads, (readHead_extended sound whole extended).2.2 _ _ reads (by decide)⟩

end Tape

end WireScan
