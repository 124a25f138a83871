import WireScan.Head.Reader
import WireScan.Scan.Lemmas

/-!
# Readers and scans agree

A reader that is given the bytes of a head one at a time ends with the head or the fault that
one scan of the same bytes comes to, and it waits for more exactly where the scan lacks data
(`Reader.result?_start`). Each stage of a reader is matched with the scan of its element: a
closed field (`Reader.result?_closedField`), the last field of a line (`Reader.result?_lastField`),
the word before the version (`Reader.result?_protocol`) and the header lines
(`Reader.result?_headerLines`).
-/
namespace WireScan.Head

/-- What is left after a field begins with the byte that closes it. -/
theorem field_rest {close : UInt8} {input rest : List UInt8} {text : String} {notes : List Note}
    (read : field close input = ⟨.ok text, rest, notes⟩) : ∃ tail, rest = close :: tail := by
  match found : Scan.upTo (.byte close) .exact input with
  | ⟨.error _, _, _⟩ => simp [field, found] at read
  | ⟨.ok bytes, left, noted⟩ =>
    rw [field, found, Outcome.mk.injEq] at read
    obtain ⟨tail, begins⟩ := Scan.upTo_byte_rest found
    exact ⟨tail, read.2.1.symm.trans begins⟩

/-- The head or the fault that a reading ended with. -/
def Reading.result? : Reading → Option (Except Fault Head)
  | .waiting _ => none
  | .ended result => some result

/-- Read on after what bytes came to. -/
def Reading.readOn (rest : List UInt8) : Reading → Reading
  | .waiting reader => reader.readAll rest
  | .ended result => .ended result

namespace Reader

/-- A byte and then others. -/
theorem readAll_cons (byte : UInt8) (rest : List UInt8) (reader : Reader) :
    reader.readAll (byte :: rest) = (reader.take byte).readOn rest := by
  rw [readAll]
  cases reader.take byte <;> rfl

/-- Making a text goes on with it, or ends with a fault that no later byte mends. -/
theorem result?_close (next : String → Reading) (reader : Reader) (rest : List UInt8) :
    ((reader.close next).readOn rest).result? =
      match textOf reader.seen.reverse with
      | .ok text => ((next text).readOn rest).result?
      | .error fault => some (.error fault) := by
  rw [close]
  cases textOf reader.seen.reverse <;> rfl

/-- Where every byte is kept up to a closing byte, a reader reads what a scan up to that byte
reads. -/
theorem result?_upTo {stage : Stage} {close : UInt8} {next : String → Reading}
    (input seen : List UInt8)
    (steps : ∀ before byte after, input = before ++ byte :: after →
      (Reader.mk stage (before.reverse ++ seen)).take byte =
        if byte = close then (Reader.mk stage (before.reverse ++ seen)).close next
        else (Reader.mk stage (before.reverse ++ seen)).keep byte) :
    ((Reader.mk stage seen).readAll input).result? =
      match Scan.upTo (.byte close) .exact input with
      | ⟨.error _, _, _⟩ => none
      | ⟨.ok bytes, rest, _⟩ =>
        match textOf (seen.reverse ++ bytes) with
        | .ok text => ((next text).readOn rest.tail).result?
        | .error fault => some (.error fault) := by
  induction input generalizing seen with
  | nil => rfl
  | cons byte input ih =>
    have step := steps [] byte input rfl
    rw [List.reverse_nil, List.nil_append] at step
    rw [readAll_cons, step]
    by_cases closes : byte = close
    · subst closes
      rw [if_pos rfl, Scan.upTo_byte_self, result?_close]
      simp
    · have later := ih (byte :: seen) fun before next after parts => by
        have whole := steps (byte :: before) next after (by rw [parts]; rfl)
        simpa using whole
      rw [if_neg closes, Scan.upTo_byte_cons closes]
      change ((Reader.mk stage (byte :: seen)).readAll input).result? = _
      rw [later]
      match Scan.upTo (.byte close) .exact input with
      | ⟨.error _, _, _⟩ => rfl
      | ⟨.ok bytes, rest, _⟩ => simp

/-- Where every byte is kept up to a closing byte, a reader reads a closed field. -/
theorem result?_closedField {stage : Stage} {close : UInt8} (next : String → Reading)
    (input : List UInt8)
    (steps : ∀ before byte after, input = before ++ byte :: after →
      (Reader.mk stage before.reverse).take byte =
        if byte = close then (Reader.mk stage before.reverse).close next
        else (Reader.mk stage before.reverse).keep byte) :
    ((Reader.mk stage []).readAll input).result? =
      match closedField close input with
      | ⟨.ok text, rest, _⟩ => ((next text).readOn rest).result?
      | ⟨.error fault, _, _⟩ => if fault.wantsMore then none else some (.error fault) := by
  rw [result?_upTo input [] (by simpa using steps)]
  match found : Scan.upTo (.byte close) .exact input with
  | ⟨.error fault, rest, notes⟩ =>
    have unclosed : field close input = ⟨.error incomplete, rest, notes⟩ := by simp [field, found]
    rw [closedField, Scan.bind_error unclosed]
    rfl
  | ⟨.ok bytes, rest, notes⟩ =>
    obtain ⟨tail, rfl⟩ := Scan.upTo_byte_rest found
    have read : field close input = ⟨textOf bytes, close :: tail, notes⟩ := by simp [field, found]
    match decoded : textOf bytes with
    | .error fault =>
      rw [decoded] at read
      rw [closedField, Scan.bind_error read]
      simp [decoded, wantsMore_of_textOf decoded]
    | .ok text =>
      rw [decoded] at read
      rw [closedField, Scan.bind_ok read]
      simp [decoded, Scan.byte, CaseRule.equal, Bind.bind, Scan.bind, Pure.pure, Scan.pure]

/-- Where every byte is kept up to a carriage return and the line feed is read next, a reader
reads the last field of a line. -/
theorem result?_lastField {stage : Stage} (line : String → Head) (input : List UInt8)
    (steps : ∀ before byte after, input = before ++ byte :: after →
      (Reader.mk stage before.reverse).take byte =
        if byte = Byte.cr then
          (Reader.mk stage before.reverse).close fun text => enter (.lineFeed (line text))
        else (Reader.mk stage before.reverse).keep byte) :
    ((Reader.mk stage []).readAll input).result? =
      match lastField input with
      | ⟨.ok text, rest, _⟩ => ((Reader.mk (.name (line text)) []).readAll rest).result?
      | ⟨.error fault, _, _⟩ => if fault.wantsMore then none else some (.error fault) := by
  rw [result?_upTo input [] (by simpa using steps)]
  match found : Scan.upTo (.byte Byte.cr) .exact input with
  | ⟨.error fault, rest, notes⟩ =>
    have unclosed : field Byte.cr input = ⟨.error incomplete, rest, notes⟩ := by
      simp [field, found]
    rw [lastField, Scan.bind_error unclosed]
    rfl
  | ⟨.ok bytes, rest, notes⟩ =>
    obtain ⟨tail, rfl⟩ := Scan.upTo_byte_rest found
    have read : field Byte.cr input = ⟨textOf bytes, Byte.cr :: tail, notes⟩ := by
      simp [field, found]
    match decoded : textOf bytes with
    | .error fault =>
      rw [decoded] at read
      rw [lastField, Scan.bind_error read]
      simp [decoded, wantsMore_of_textOf decoded]
    | .ok text =>
      rw [decoded] at read
      rw [lastField, Scan.bind_ok read]
      simp only [List.reverse_nil, List.nil_append, decoded, List.tail_cons]
      change ((Reader.mk (.lineFeed (line text)) []).readAll tail).result? = _
      match tail with
      | [] =>
        have short : Scan.exactly Byte.lineEnd [Byte.cr] =
            ⟨.error (.tooFew 2 1), [Byte.cr], []⟩ := rfl
        rw [Scan.bind_error short]
        rfl
      | next :: tail =>
        rw [readAll_cons]
        by_cases feeds : next = Byte.lf
        · subst feeds
          have ended : Scan.exactly Byte.lineEnd (Byte.cr :: Byte.lf :: tail) =
              ⟨.ok (), tail, []⟩ := Scan.exactly_append Byte.lineEnd tail
          rw [Scan.bind_ok ended]
          rfl
        · have other : [Byte.cr, next] ≠ Byte.lineEnd := by simpa [Byte.lineEnd] using feeds
          have refused : Scan.exactly Byte.lineEnd (Byte.cr :: next :: tail) =
              ⟨.error .mismatch, Byte.cr :: next :: tail, []⟩ :=
            Scan.exactly_other (show [Byte.cr, next].length = Byte.lineEnd.length from rfl) other
              tail
          rw [Scan.bind_error refused]
          simp [take, feeds, Reading.readOn, Reading.result?, Fault.wantsMore]

/-- The word before the version in bytes. -/
theorem protocol_eq : protocol = [72, 84, 84, 80, 47] := by decide

/-- A byte of the word before the version is kept until the word is long enough. -/
theorem take_protocol (method target : String) (byte : UInt8) (seen : List UInt8) :
    (Reader.mk (.protocol method target) seen).take byte =
      if seen.length < 4 then (Reader.mk (.protocol method target) seen).keep byte
      else if (byte :: seen).reverse = protocol then enter (.version method target)
      else .ended (.error .mismatch) := by
  have short : (byte :: seen).reverse.length < protocol.length ↔ seen.length < 4 := by
    rw [protocol_eq, List.length_reverse, List.length_cons]
    exact Nat.succ_lt_succ_iff
  simp only [take, short]

/-- A reader reads the word before the version as a scan of these bytes does. -/
theorem result?_protocol (method target : String) (input : List UInt8) :
    ((Reader.mk (.protocol method target) []).readAll input).result? =
      match Scan.exactly protocol input with
      | ⟨.ok _, rest, _⟩ => ((Reader.mk (.version method target) []).readAll rest).result?
      | ⟨.error fault, _, _⟩ => if fault.wantsMore then none else some (.error fault) := by
  match input with
  | [] | [_] | [_, _] | [_, _, _] | [_, _, _, _] =>
    rw [Scan.exactly_short (by rw [protocol_eq]; simp)]
    simp [readAll, take_protocol, keep, Reading.result?, Fault.wantsMore]
  | first :: second :: third :: fourth :: fifth :: rest =>
    have parts : first :: second :: third :: fourth :: fifth :: rest =
        [first, second, third, fourth, fifth] ++ rest := rfl
    by_cases matched : [first, second, third, fourth, fifth] = protocol
    · rw [parts, matched, Scan.exactly_append]
      rw [protocol_eq] at matched
      cases matched
      simp [readAll, take_protocol, keep, protocol_eq, enter]
    · rw [parts, Scan.exactly_other (by rw [protocol_eq]; rfl) matched]
      simp [readAll, take_protocol, keep, matched, Reading.result?, Fault.wantsMore]

/-- Spaces before a value are passed over. -/
theorem readAll_value (head : Head) (name : String) (input : List UInt8) :
    (Reader.mk (.value head name) []).readAll input =
      (Reader.mk (.value head name) []).readAll (input.dropWhile (· == Byte.space)) := by
  induction input with
  | nil => rfl
  | cons byte input ih =>
    by_cases space : byte = Byte.space
    · rw [List.dropWhile_cons_of_pos (by simp [space]), ← ih, readAll_cons]
      simp [take, space, Reading.readOn]
    · rw [List.dropWhile_cons_of_neg (by simp [space])]

/-- A reader reads a value as a scan does that passes over spaces before it. -/
theorem result?_value (head : Head) (name : String) (input : List UInt8) :
    ((Reader.mk (.value head name) []).readAll input).result? =
      match lastField (input.dropWhile (· == Byte.space)) with
      | ⟨.ok value, rest, _⟩ =>
        ((Reader.mk (.name { head with headers := (name, value) :: head.headers }) []).readAll
          rest).result?
      | ⟨.error fault, _, _⟩ => if fault.wantsMore then none else some (.error fault) := by
  rw [readAll_value, result?_lastField fun value =>
    { head with headers := (name, value) :: head.headers }]
  intro before byte after parts
  have kept : ¬(byte = Byte.space ∧ before.reverse = []) := by
    rintro ⟨space, none⟩
    rw [List.reverse_eq_nil_iff.mp none, List.nil_append] at parts
    have first := List.head?_dropWhile_not (· == Byte.space) input
    rw [parts] at first
    simp [space] at first
  simp only [take, kept, if_false]

/-- A reader reads a header line as a scan does, where the bytes ahead are no empty line. -/
theorem result?_headerLine (head : Head) (input : List UInt8)
    (steps : ∀ before byte after, input = before ++ byte :: after →
      (Reader.mk (.name head) before.reverse).take byte =
        if byte = ':'.toUInt8 then
          (Reader.mk (.name head) before.reverse).close fun name => enter (.value head name)
        else (Reader.mk (.name head) before.reverse).keep byte) :
    ((Reader.mk (.name head) []).readAll input).result? =
      match headerLine input with
      | ⟨.ok header, rest, _⟩ =>
        ((Reader.mk (.name { head with headers := header :: head.headers }) []).readAll
          rest).result?
      | ⟨.error fault, _, _⟩ => if fault.wantsMore then none else some (.error fault) := by
  rw [result?_closedField _ _ steps]
  match named : closedField ':'.toUInt8 input with
  | ⟨.error fault, left, notes⟩ => rw [headerLine, Scan.bind_error named]
  | ⟨.ok name, left, notes⟩ =>
    change ((Reader.mk (.value head name) []).readAll left).result? = _
    rw [result?_value, headerLine, Scan.bind_ok named,
      Scan.bind_ok (show Scan.skipWhile (· == Byte.space) left = _ from rfl)]
    match valued : lastField (left.dropWhile (· == Byte.space)) with
    | ⟨.error fault, last, more⟩ => rw [Scan.bind_error valued]
    | ⟨.ok value, last, more⟩ =>
      rw [Scan.bind_ok valued]
      rfl

/-- Bytes that do not begin with an empty line are kept up to a colon. -/
theorem take_name (head : Head) {first second : UInt8} {rest : List UInt8}
    (filled : ¬(first = Byte.cr ∧ second = Byte.lf)) (before : List UInt8) (byte : UInt8)
    (after : List UInt8) (parts : first :: second :: rest = before ++ byte :: after) :
    (Reader.mk (.name head) before.reverse).take byte =
      if byte = ':'.toUInt8 then
        (Reader.mk (.name head) before.reverse).close fun name => enter (.value head name)
      else (Reader.mk (.name head) before.reverse).keep byte := by
  have goes : ¬(byte = Byte.lf ∧ before.reverse = [Byte.cr]) := by
    rintro ⟨feeds, returns⟩
    rw [List.reverse_eq_iff.mp returns] at parts
    simp only [List.reverse_singleton, List.singleton_append, List.cons.injEq] at parts
    exact filled ⟨parts.1, parts.2.1.trans feeds⟩
  simp only [take, goes, if_false]

/-- A scan whose value is wrapped fails as it does bare. -/
theorem map_some_error {input rest : List UInt8} {fault : Fault} {notes : List Note}
    (read : headerLine input = ⟨.error fault, rest, notes⟩) :
    (some <$> headerLine) input = ⟨.error fault, rest, notes⟩ := Scan.bind_error read

/-- A scan whose value is wrapped reads what it reads bare. -/
theorem map_some_ok {input rest : List UInt8} {header : String × String} {notes : List Note}
    (read : headerLine input = ⟨.ok header, rest, notes⟩) :
    (some <$> headerLine) input = ⟨.ok (some header), rest, notes ++ []⟩ := Scan.bind_ok read

/-- A reader reads a header line, or the empty line that ends the head, as a scan does. -/
theorem result?_nextHeader (head : Head) (input : List UInt8) :
    ((Reader.mk (.name head) []).readAll input).result? =
      match nextHeader input with
      | ⟨.ok none, _, _⟩ => some (.ok { head with headers := head.headers.reverse })
      | ⟨.ok (some header), rest, _⟩ =>
        ((Reader.mk (.name { head with headers := header :: head.headers }) []).readAll
          rest).result?
      | ⟨.error fault, _, _⟩ => if fault.wantsMore then none else some (.error fault) := by
  match input with
  | [] => rfl
  | [byte] =>
    by_cases colon : byte = ':'.toUInt8
    · subst colon
      rfl
    · rw [readAll_cons]
      simp [take, colon, keep, nextHeader, incomplete, Reading.readOn, readAll, Reading.result?,
        Fault.wantsMore]
  | first :: second :: rest =>
    by_cases empty : first = Byte.cr ∧ second = Byte.lf
    · obtain ⟨rfl, rfl⟩ := empty
      rfl
    · rw [result?_headerLine head _ (take_name head empty), nextHeader, if_neg empty]
      rcases read : headerLine (first :: second :: rest) with ⟨fault | header, left, notes⟩
      · rw [map_some_error read]
      · rw [map_some_ok read]

/-- A reader reads the header lines and the empty line after them as a scan does. -/
theorem result?_headerLines (head : Head) (input : List UInt8) :
    ((Reader.mk (.name head) []).readAll input).result? =
      match headerLines input with
      | ⟨.ok headers, _, _⟩ => some (.ok { head with headers := head.headers.reverse ++ headers })
      | ⟨.error fault, _, _⟩ => if fault.wantsMore then none else some (.error fault) := by
  rw [result?_nextHeader]
  fun_induction headerLines input generalizing head with
  | case1 input fault rest notes read => rw [read]
  | case2 input rest notes read => rw [read]; simp
  | case3 input header rest notes read shorter later ih =>
    rw [read]
    dsimp only
    rw [result?_nextHeader, ih]
    dsimp only [later]
    match headerLines rest with
    | ⟨.error fault, _, _⟩ => rfl
    | ⟨.ok headers, _, _⟩ => simp [Functor.map, Except.map]

/-- A reader reads a target as a scan does. -/
theorem result?_target (method : String) (input : List UInt8) :
    ((Reader.mk (.target method) []).readAll input).result? =
      match closedField Byte.space input with
      | ⟨.ok target, rest, _⟩ => ((Reader.mk (.protocol method target) []).readAll rest).result?
      | ⟨.error fault, _, _⟩ => if fault.wantsMore then none else some (.error fault) :=
  result?_closedField (fun target => enter (.protocol method target)) input fun _ _ _ _ => rfl

/-- A reader reads a version as a scan does. -/
theorem result?_version (method target : String) (input : List UInt8) :
    ((Reader.mk (.version method target) []).readAll input).result? =
      match lastField input with
      | ⟨.ok version, rest, _⟩ =>
        ((Reader.mk (.name ⟨method, target, version, []⟩) []).readAll rest).result?
      | ⟨.error fault, _, _⟩ => if fault.wantsMore then none else some (.error fault) :=
  result?_lastField (fun version => ⟨method, target, version, []⟩) input fun _ _ _ _ => rfl

end Reader

/-- The rest of a head after its method and the space behind it. -/
def afterMethod (method : String) : Scan Head := do
  let target ← closedField Byte.space
  Scan.exactly protocol
  let version ← lastField
  let headers ← (headerLines : Scan (List (String × String)))
  return ⟨method, target, version, headers⟩

/-- A head is a method that is not empty, a space and the rest. -/
theorem scan_eq_afterMethod :
    scan = field Byte.space >>= fun method =>
      if method.isEmpty then Scan.fail .mismatch
      else Scan.byte Byte.space .exact >>= fun _ => afterMethod method := by
  simp only [scan, requestLine, methodField, Scan.bind_assoc]
  congr
  funext method
  split
  · rfl
  · rfl

namespace Reader

/-- A reader reads the rest of a head as a scan does. -/
theorem result?_afterMethod (method : String) (input : List UInt8) :
    ((Reader.mk (.target method) []).readAll input).result? = (afterMethod method input).settled? := by
  rw [result?_target, afterMethod, Scan.settled?_bind]
  match closedField Byte.space input with
  | ⟨.error _, _, _⟩ => rfl
  | ⟨.ok target, rest, _⟩ =>
    dsimp only
    rw [result?_protocol, Scan.settled?_bind]
    match Scan.exactly protocol rest with
    | ⟨.error _, _, _⟩ => rfl
    | ⟨.ok _, rest, _⟩ =>
      dsimp only
      rw [result?_version, Scan.settled?_bind]
      match lastField rest with
      | ⟨.error _, _, _⟩ => rfl
      | ⟨.ok version, rest, _⟩ =>
        dsimp only
        refine Eq.trans ?_ (Scan.settled?_bind headerLines _ rest).symm
        rw [result?_headerLines]
        match headerLines rest with
        | ⟨.error _, _, _⟩ => rfl
        | ⟨.ok headers, _, _⟩ => rfl

/-- A reader ends with the head or the fault that a scan of the same bytes comes to, and it waits
exactly where the scan lacks data. -/
theorem result?_start (input : List UInt8) :
    (start.readAll input).result? = (scan input).settled? := by
  rw [start, result?_closedField (fun method =>
    if method.isEmpty then .ended (.error .mismatch) else enter (.target method)) input
    fun _ _ _ _ => rfl, scan_eq_afterMethod, Scan.settled?_bind]
  match named : field Byte.space input with
  | ⟨.error fault, rest, notes⟩ => rw [closedField, Scan.bind_error named]
  | ⟨.ok method, rest, notes⟩ =>
    obtain ⟨tail, rfl⟩ := field_rest named
    have closed : closedField Byte.space input = ⟨.ok method, tail, notes ++ ([] ++ [])⟩ := by
      rw [closedField, Scan.bind_ok named]
      rfl
    rw [closed]
    by_cases empty : method.isEmpty
    · simp only [empty, if_true]
      rfl
    · simp only [empty, if_false, Bool.false_eq_true]
      exact result?_afterMethod method tail

end Reader

end WireScan.Head
