import WireScan.Head

/-!
# Reading a request head byte by byte

A reader takes the bytes of a head one at a time and keeps what it has made of them, so an input
that arrives in pieces is read as it arrives and no byte of it twice. Where the pieces end makes
no difference (`readAll_append`).
-/
namespace WireScan.Head

/-- What a reader inside a head reads next. Inside a head that is kept for its lines, the headers
stand the latest first. -/
inductive Stage
  /-- The method. -/
  | method
  /-- The target. -/
  | target (method : String)
  /-- The word before the version. -/
  | protocol (method target : String)
  /-- The version. -/
  | version (method target : String)
  /-- The line feed that ends a line. -/
  | lineFeed (head : Head)
  /-- The name of a header, or the empty line. -/
  | name (head : Head)
  /-- The value of a header. -/
  | value (head : Head) (name : String)
deriving DecidableEq, Repr

/-- A reader inside a head. -/
structure Reader where
  /-- What it reads next. -/
  stage : Stage
  /-- The bytes of it that were read, the latest first. -/
  seen : List UInt8
deriving DecidableEq, Repr

/-- What bytes came to. -/
inductive Reading
  /-- The head goes on. -/
  | waiting (reader : Reader)
  /-- The head is whole or faulty. -/
  | ended (result : Except Fault Head)

namespace Reader

/-- The reader before the first byte of a head. -/
def start : Reader := ⟨.method, []⟩

/-- Begin a stage. -/
def enter (stage : Stage) : Reading := .waiting ⟨stage, []⟩

/-- Keep a byte. -/
def keep (byte : UInt8) (reader : Reader) : Reading :=
  .waiting { reader with seen := byte :: reader.seen }

/-- Make a text of the bytes read and go on with it. -/
def close (next : String → Reading) (reader : Reader) : Reading :=
  match textOf reader.seen.reverse with
  | .ok text => next text
  | .error fault => .ended (.error fault)

/-- Read one byte. -/
def take (byte : UInt8) (reader : Reader) : Reading :=
  match reader.stage with
  | .method =>
    if byte = Byte.space then
      reader.close fun method =>
        if method.isEmpty then .ended (.error .mismatch) else enter (.target method)
    else reader.keep byte
  | .target method =>
    if byte = Byte.space then reader.close fun target => enter (.protocol method target)
    else reader.keep byte
  | .protocol method target =>
    let word := (byte :: reader.seen).reverse
    if word.length < protocol.length then reader.keep byte
    else if word = protocol then enter (.version method target)
    else .ended (.error .mismatch)
  | .version method target =>
    if byte = Byte.cr then
      reader.close fun version => enter (.lineFeed ⟨method, target, version, []⟩)
    else reader.keep byte
  | .lineFeed head =>
    if byte = Byte.lf then enter (.name head) else .ended (.error .mismatch)
  | .name head =>
    if byte = Byte.lf ∧ reader.seen = [Byte.cr] then
      .ended (.ok { head with headers := head.headers.reverse })
    else if byte = ':'.toUInt8 then reader.close fun name => enter (.value head name)
    else reader.keep byte
  | .value head name =>
    if byte = Byte.space ∧ reader.seen = [] then .waiting reader
    else if byte = Byte.cr then
      reader.close fun value =>
        enter (.lineFeed { head with headers := (name, value) :: head.headers })
    else reader.keep byte

/-- Read bytes in order until the head ends. -/
def readAll : List UInt8 → Reader → Reading
  | [], reader => .waiting reader
  | byte :: rest, reader =>
    match reader.take byte with
    | .waiting next => readAll rest next
    | .ended result => .ended result

/-- Reading bytes after others is reading on where those left off. -/
theorem readAll_append (before after : List UInt8) (reader : Reader) :
    readAll (before ++ after) reader =
      match readAll before reader with
      | .waiting next => readAll after next
      | .ended result => .ended result := by
  induction before generalizing reader with
  | nil => rfl
  | cons byte before ih =>
    simp only [List.cons_append, readAll]
    split
    · exact ih _
    · rfl

end Reader

end WireScan.Head
