import WireScan.Scan

/-!
# Request heads

A request head is a line `METHOD TARGET HTTP/VERSION`, lines `NAME: VALUE` and an empty line,
each ended by a carriage return and a line feed. A field is all bytes up to the byte that closes
it, read as UTF-8. Input that ends before the head does is never refused for what it lacks:
`Head.scan` then fails for want of data. `Tape.readHead` reads a head from a tape as a whole or
not at all.
-/
namespace WireScan

/-- A request head. -/
structure Head where
  /-- What is asked for. -/
  method : String
  /-- What it is asked of. -/
  target : String
  /-- The version after `HTTP/`. -/
  version : String
  /-- The names and values of the header lines, in order. -/
  headers : List (String × String)
deriving DecidableEq, Repr

namespace Head

/-- The fault of input that ends inside a head. -/
def incomplete : Fault := .tooFew 1 0

/-- A text closed by a byte, which is left ahead. -/
def field (close : UInt8) : Scan String := fun input =>
  match Scan.upTo (.byte close) .exact input with
  | ⟨.error _, rest, notes⟩ => ⟨.error incomplete, rest, notes⟩
  | ⟨.ok bytes, rest, notes⟩ => ⟨textOf bytes, rest, notes⟩

/-- A method, which is not empty. -/
def methodField : Scan String := do
  let method ← field Byte.space
  if method.isEmpty then Scan.fail .mismatch else Scan.pure method

/-- A text with the byte that closes it. -/
def closedField (close : UInt8) : Scan String := do
  let text ← field close
  Scan.byte close .exact
  return text

/-- A text with the line end that closes it. -/
def lastField : Scan String := do
  let text ← field Byte.cr
  Scan.exactly Byte.lineEnd
  return text

/-- The word before the version. -/
def protocol : List UInt8 := Byte.ofAscii "HTTP/"

/-- The request line, as a head without headers. -/
def requestLine : Scan Head := do
  let method ← methodField
  Scan.byte Byte.space .exact
  let target ← closedField Byte.space
  Scan.exactly protocol
  let version ← lastField
  return ⟨method, target, version, []⟩

/-- A header line: its name and its value, which begins after any number of spaces. -/
def headerLine : Scan (String × String) := do
  let name ← closedField ':'.toUInt8
  Scan.skipWhile (· == Byte.space)
  let value ← lastField
  return (name, value)

/-- A header line, or none for the empty line that ends the head. -/
def nextHeader : Scan (Option (String × String))
  | first :: second :: rest =>
    if first = Byte.cr ∧ second = Byte.lf then ⟨.ok none, rest, []⟩
    else (some <$> headerLine) (first :: second :: rest)
  | short => ⟨.error incomplete, short, []⟩

/-- A field leaves the bytes from its closing byte on. -/
theorem field_leavesEnd (close : UInt8) : (field close).LeavesEnd := by
  intro input
  have left := Scan.upTo_leavesEnd (.byte close) .exact input
  unfold field
  split <;> rename_i read <;> rw [read] at left <;> exact left

/-- A closed field holds at least its closing byte. -/
theorem closedField_consumes (close : UInt8) : (closedField close).Consumes :=
  (field_leavesEnd close).bind_consumes fun _ =>
    (Scan.byte_consumes close .exact).bind fun _ => Scan.pure_leavesEnd _

/-- A last field leaves the bytes after its line end. -/
theorem lastField_leavesEnd : lastField.LeavesEnd :=
  (field_leavesEnd Byte.cr).bind fun _ =>
    (Scan.exactly_leavesEnd Byte.lineEnd).bind fun _ => Scan.pure_leavesEnd _

/-- A header line holds at least one byte. -/
theorem headerLine_consumes : headerLine.Consumes :=
  (closedField_consumes _).bind fun _ => (Scan.skipWhile_leavesEnd _).bind fun _ =>
    lastField_leavesEnd.bind fun _ => Scan.pure_leavesEnd _

/-- Fewer bytes are left after a header line than before it. -/
theorem nextHeader_consumes {input rest : List UInt8} {header : String × String}
    {notes : List Note} (read : nextHeader input = ⟨.ok (some header), rest, notes⟩) :
    rest.length < input.length := by
  unfold nextHeader at read
  split at read
  · split at read
    · cases read
    · exact headerLine_consumes.bind (fun _ => Scan.pure_leavesEnd _) _ _ _ _ read
  · cases read

/-- The header lines up to the empty line that ends the head, and that line. -/
def headerLines (input : List UInt8) : Outcome (List (String × String)) :=
  match read : nextHeader input with
  | ⟨.error fault, rest, notes⟩ => ⟨.error fault, rest, notes⟩
  | ⟨.ok none, rest, notes⟩ => ⟨.ok [], rest, notes⟩
  | ⟨.ok (some header), rest, notes⟩ =>
    have := nextHeader_consumes read
    let later := headerLines rest
    ⟨(header :: ·) <$> later.result, later.rest, notes ++ later.notes⟩
termination_by input.length

/-- A whole head. -/
def scan : Scan Head := do
  let line ← requestLine
  let headers ← (headerLines : Scan (List (String × String)))
  return { line with headers }

/-- The text of a head as it is shown: the request line, then a line for each header. -/
def render (head : Head) : String :=
  head.method ++ " " ++ head.target ++ " HTTP/" ++ head.version ++ "\n"
    ++ String.join (head.headers.map fun (name, value) => name ++ ": " ++ value ++ "\n")

end Head

/-- Read a head from a tape. Where the bytes ahead end inside the head, the answer is that there
is none yet; then, and on every fault, the tape stays where it was. -/
def Tape.readHead (tape : Tape) : Passage (Option Head) :=
  let ⟨result, reached, notes⟩ := tape.scan Head.scan
  let undone := Note.rolledBack reached.window.pos tape.window.pos
  match result with
  | .ok head => ⟨.ok (some head), reached, notes⟩
  | .error fault =>
    if fault.wantsMore then
      ⟨.ok none, tape, notes ++ [.headIncomplete reached.position, undone]⟩
    else ⟨.error fault, tape, notes ++ [undone]⟩

end WireScan
