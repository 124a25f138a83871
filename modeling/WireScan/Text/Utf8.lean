/-!
# UTF-8

Bytes are read as UTF-8 one at a time: between characters a byte opens one, and inside a
character each further byte must lie in a range that the bytes before it fix, so that
over-long forms, surrogates and values above the last scalar are refused at the first byte
that rules them out. A refusal says where the broken character starts and how many of its
bytes were in order; a text that ends inside a character has no such number.
-/
namespace WireScan.Utf8

/-- Why bytes are not UTF-8. -/
structure Fault where
  /-- The index of the first byte of the broken character. -/
  index : Nat
  /-- How many bytes of the broken character are to be passed over, or none when the text ends
  inside the character. -/
  length? : Option Nat
deriving DecidableEq, Repr

/-- The wording of a fault. -/
def Fault.message (fault : Fault) : String :=
  match fault.length? with
  | some length =>
    "invalid utf-8 sequence of " ++ toString length ++ " bytes from index " ++ toString fault.index
  | none => "incomplete utf-8 byte sequence from index " ++ toString fault.index

/-- A character of which some bytes were read. -/
structure Pending where
  /-- The bytes read. -/
  seen : Nat
  /-- The bytes still owed. -/
  owed : Nat
  /-- The least next byte. -/
  low : UInt8
  /-- The greatest next byte. -/
  high : UInt8
  /-- The bits read, as a number. -/
  bits : Nat
deriving DecidableEq, Repr

/-- What a byte between characters opens: nothing for a byte that starts no character. -/
def Pending.ofLead (lead : UInt8) : Option Pending :=
  let bits := lead.toNat
  if 0xC2 ≤ lead ∧ lead ≤ 0xDF then some ⟨1, 1, 0x80, 0xBF, bits - 0xC0⟩
  else if lead = 0xE0 then some ⟨1, 2, 0xA0, 0xBF, 0⟩
  else if lead = 0xED then some ⟨1, 2, 0x80, 0x9F, 0xD⟩
  else if 0xE1 ≤ lead ∧ lead ≤ 0xEF then some ⟨1, 2, 0x80, 0xBF, bits - 0xE0⟩
  else if lead = 0xF0 then some ⟨1, 3, 0x90, 0xBF, 0⟩
  else if lead = 0xF4 then some ⟨1, 3, 0x80, 0x8F, 4⟩
  else if 0xF1 ≤ lead ∧ lead ≤ 0xF3 then some ⟨1, 3, 0x80, 0xBF, bits - 0xF0⟩
  else none

/-- The bits of a character after one more of its bytes. -/
def Pending.join (pending : Pending) (byte : UInt8) : Nat := pending.bits * 64 + byte.toNat % 64

/-- A character after one more of its bytes, when more are owed. -/
def Pending.next (pending : Pending) (byte : UInt8) : Pending :=
  ⟨pending.seen + 1, pending.owed - 1, 0x80, 0xBF, pending.join byte⟩

/-- The characters of a text whose next character starts at the given index and was read as far
as the given state. -/
def charsFrom (index : Nat) : Option Pending → List UInt8 → Except Fault (List Char)
  | none, [] => .ok []
  | some _, [] => .error ⟨index, none⟩
  | none, lead :: rest =>
    if lead < 0x80 then
      (Char.ofNat lead.toNat :: ·) <$> charsFrom (index + 1) none rest
    else match Pending.ofLead lead with
      | some pending => charsFrom index (some pending) rest
      | none => .error ⟨index, some 1⟩
  | some pending, byte :: rest =>
    if byte < pending.low ∨ pending.high < byte then .error ⟨index, some pending.seen⟩
    else if pending.owed ≤ 1 then
      (Char.ofNat (pending.join byte) :: ·) <$> charsFrom (index + pending.seen + 1) none rest
    else charsFrom index (some (pending.next byte)) rest

/-- The text that bytes encode. -/
def decode (bytes : List UInt8) : Except Fault String :=
  String.ofList <$> charsFrom 0 none bytes

/-- The bytes that encode a text. -/
def encode (text : String) : List UInt8 := text.toList.flatMap String.utf8EncodeChar

/-- The bytes of two texts in order are the bytes of one after the bytes of the other. -/
theorem encode_append (left right : String) :
    encode (left ++ right) = encode left ++ encode right := by
  simp [encode, List.flatMap_append]

end WireScan.Utf8
