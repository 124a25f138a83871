import WireScan.Head.Agreement

/-!
# Answers to reading a head

An attempt at reading a head from bytes answers with a head, with a fault, or that there is no head
yet (`Head.attempt`), and reading a head from a tape answers with the attempt on the bytes ahead
(`Tape.readHead_result`). A reader that takes the bytes one at a time comes to the same
(`Head.Reader.readAll_start`). Since all a reader ever refuses are the bytes it reads, no attempt
fails for anything else (`Head.attempt_faultOfBytes`).
-/
namespace WireScan

/-- A fault of the bytes that are read: they are not those that were asked for, or no text. -/
inductive Fault.OfBytes : Fault → Prop
  /-- Other bytes than those that were asked for. -/
  | mismatch : OfBytes .mismatch
  /-- Bytes that are no text. -/
  | badText (cause : Utf8.Fault) : OfBytes (.badText cause)

namespace Head

/-- What an attempt at reading a head from bytes answers: a head, a fault, or that there is no head
yet. -/
def attempt (input : List UInt8) : Except Fault (Option Head) :=
  match (scan input).settled? with
  | some (.ok head) => .ok (some head)
  | some (.error fault) => .error fault
  | none => .ok none

/-- An attempt gives a head exactly when the scan reads it. -/
theorem attempt_eq_some_iff {input : List UInt8} {head : Head} :
    attempt input = .ok (some head) ↔ (scan input).result = .ok head := by
  unfold attempt Outcome.settled?
  cases (scan input).result with
  | ok read => simp
  | error fault => by_cases wants : fault.wantsMore <;> simp [wants]

end Head

namespace Tape

/-- Reading a head from a tape answers what an attempt on the bytes ahead does. -/
theorem readHead_result (tape : Tape) : tape.readHead.result = Head.attempt tape.ahead := by
  unfold readHead Tape.scan Head.attempt Outcome.settled?
  dsimp only
  cases (Head.scan tape.ahead).result with
  | ok head => rfl
  | error fault =>
    dsimp only
    split <;> rfl

/-- A tape from which no head was read stays as it was. -/
theorem readHead_tape_of_none {tape : Tape} (none : ∀ head, tape.readHead.result ≠ .ok (some head)) :
    tape.readHead.tape = tape := by
  match read : tape.scan Head.scan with
  | ⟨.ok head, reached, notes⟩ =>
    have found : tape.readHead.result = .ok (some head) := by simp only [readHead, read]
    exact absurd found (none head)
  | ⟨.error fault, reached, notes⟩ =>
    simp only [readHead, read]
    split <;> rfl

end Tape

/-- The answer to reading a head from bytes as a whole. -/
def Head.answer (data : List UInt8) : Except Fault (Option Head) :=
  (Tape.ofBytes data).readHead.result

namespace Head

/-- The answer to bytes as a whole is the attempt on them. -/
theorem answer_eq (data : List UInt8) : answer data = attempt data := by
  have ahead : (Tape.ofBytes data).ahead = data := by
    rw [Tape.ahead_eq (Tape.ofBytes_valid data)]
    simp [Tape.ofBytes, Window.spanning]
  rw [answer, Tape.readHead_result, ahead]

/-- A reading that ended with a fault ended with one of the bytes. -/
def Reading.FaultsOfBytes (reading : Reading) : Prop :=
  ∀ fault, reading = .ended (.error fault) → fault.OfBytes

namespace Reader

/-- A reading that goes on has no fault. -/
theorem waiting_faultsOfBytes (reader : Reader) : (Reading.waiting reader).FaultsOfBytes := nofun

/-- A reading that finds other bytes has a fault of the bytes. -/
theorem mismatch_faultsOfBytes : (Reading.ended (.error .mismatch)).FaultsOfBytes := by
  intro fault ended
  cases ended
  exact .mismatch

/-- Making a text fails for the bytes of the text alone. -/
theorem close_faultsOfBytes {next : String → Reading} (later : ∀ text, (next text).FaultsOfBytes)
    (reader : Reader) : (reader.close next).FaultsOfBytes := by
  intro fault ended
  unfold close textOf at ended
  cases decoded : Utf8.decode reader.seen.reverse with
  | ok text =>
    rw [decoded] at ended
    exact later text fault ended
  | error cause =>
    rw [decoded] at ended
    cases ended
    exact .badText cause

/-- A reader that reads one byte has no other faults than those of the bytes. -/
theorem take_faultsOfBytes (byte : UInt8) (reader : Reader) :
    (reader.take byte).FaultsOfBytes := by
  unfold take
  cases reader.stage with
  | method =>
    dsimp only
    split
    · refine close_faultsOfBytes (fun text => ?_) reader
      split
      · exact mismatch_faultsOfBytes
      · exact waiting_faultsOfBytes _
    · exact waiting_faultsOfBytes _
  | target method =>
    dsimp only
    split
    · exact close_faultsOfBytes (fun _ => waiting_faultsOfBytes _) reader
    · exact waiting_faultsOfBytes _
  | protocol method target =>
    dsimp only
    split
    · exact waiting_faultsOfBytes _
    · split
      · exact waiting_faultsOfBytes _
      · exact mismatch_faultsOfBytes
  | version method target =>
    dsimp only
    split
    · exact close_faultsOfBytes (fun _ => waiting_faultsOfBytes _) reader
    · exact waiting_faultsOfBytes _
  | lineFeed head =>
    dsimp only
    split
    · exact waiting_faultsOfBytes _
    · exact mismatch_faultsOfBytes
  | name head =>
    dsimp only
    split
    · nofun
    · split
      · exact close_faultsOfBytes (fun _ => waiting_faultsOfBytes _) reader
      · exact waiting_faultsOfBytes _
  | value head name =>
    dsimp only
    split
    · exact waiting_faultsOfBytes _
    · split
      · exact close_faultsOfBytes (fun _ => waiting_faultsOfBytes _) reader
      · exact waiting_faultsOfBytes _

/-- Whatever bytes a reader is given, it has no other faults than those of the bytes. -/
theorem readAll_faultsOfBytes (input : List UInt8) (reader : Reader) :
    (reader.readAll input).FaultsOfBytes := by
  induction input generalizing reader with
  | nil => exact waiting_faultsOfBytes reader
  | cons byte rest ih =>
    have first := take_faultsOfBytes byte reader
    rw [readAll]
    generalize reader.take byte = reading at first ⊢
    cases reading with
    | waiting next => exact ih next
    | ended result => exact first

/-- A reader that was given the bytes of an input waits where there is no head yet, and ends with
the head or the fault of the bytes otherwise. -/
theorem readAll_start (input : List UInt8) :
    match start.readAll input with
    | .waiting _ => attempt input = .ok none
    | .ended (.ok head) => attempt input = .ok (some head)
    | .ended (.error fault) => attempt input = .error fault := by
  have agreed := result?_start input
  unfold attempt
  rw [← agreed]
  match start.readAll input with
  | .waiting _ => rfl
  | .ended (.ok _) => rfl
  | .ended (.error _) => rfl

end Reader

/-- An attempt is faulty for the bytes it reads alone. -/
theorem attempt_faultOfBytes {input : List UInt8} {fault : Fault}
    (refused : attempt input = .error fault) : fault.OfBytes := by
  have agreed := Reader.readAll_start input
  match read : Reader.start.readAll input with
  | .waiting _ => simp [read, refused] at agreed
  | .ended (.ok _) => simp [read, refused] at agreed
  | .ended (.error found) =>
    simp only [read, refused, Except.error.injEq] at agreed
    subst agreed
    exact Reader.readAll_faultsOfBytes input .start _ read

end Head

end WireScan
