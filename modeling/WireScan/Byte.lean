/-!
# Bytes of a wire format

Named bytes, the classes of bytes that scans skip, the two rules by which bytes are compared,
and the sets of bytes at which a scan stops. Comparison without regard to case folds ASCII
letters and no other byte, so it is an equivalence (`CaseRule.equal_iff`), and a stop set means
nothing but its members (`StopSet.contains_iff`).
-/
namespace WireScan

namespace Byte

/-- Carriage return. -/
def cr : UInt8 := 13

/-- Line feed. -/
def lf : UInt8 := 10

/-- Space. -/
def space : UInt8 := 32

/-- The two bytes that end a line. -/
def lineEnd : List UInt8 := [cr, lf]

/-- An ASCII decimal digit. -/
def isDigit (byte : UInt8) : Bool := 48 ≤ byte && byte ≤ 57

/-- The bytes that stand for blank space before a numeral: tab, line feed, vertical tab, form
feed, carriage return and space. -/
def isBlank (byte : UInt8) : Bool := byte == space || (9 ≤ byte && byte ≤ 13)

/-- An ASCII capital letter as its small letter; every other byte as itself. -/
def fold (byte : UInt8) : UInt8 := if 65 ≤ byte ∧ byte ≤ 90 then byte + 32 else byte

/-- The bytes of an ASCII text, one for each character. -/
def ofAscii (text : String) : List UInt8 := text.toList.map Char.toUInt8

end Byte

/-- How two bytes are compared. -/
inductive CaseRule
  /-- Byte for byte. -/
  | exact
  /-- ASCII letters without regard to case. -/
  | folded
deriving DecidableEq, Repr

namespace CaseRule

instance : Inhabited CaseRule := ⟨folded⟩

/-- What a byte counts as under a rule. -/
def fold : CaseRule → UInt8 → UInt8
  | exact, byte => byte
  | folded, byte => Byte.fold byte

/-- Two bytes are equal under a rule. -/
def equal (rule : CaseRule) (left right : UInt8) : Bool := rule.fold left == rule.fold right

/-- Two bytes are equal under a rule exactly when they count as the same byte. -/
theorem equal_iff {rule : CaseRule} {left right : UInt8} :
    rule.equal left right = true ↔ rule.fold left = rule.fold right := beq_iff_eq

end CaseRule

/-- A set of bytes at which a scan stops. -/
inductive StopSet
  /-- One byte. -/
  | byte (member : UInt8)
  /-- The bytes of a list. -/
  | list (members : List UInt8)
  /-- The bytes of an array. -/
  | array (members : Array UInt8)
deriving DecidableEq, Repr

namespace StopSet

/-- The bytes a stop set is given by. -/
def members : StopSet → List UInt8
  | byte member => [member]
  | list members => members
  | array members => members.toList

/-- A byte equals some member under a rule. -/
def contains (rule : CaseRule) (byte : UInt8) : StopSet → Bool
  | .byte member => rule.equal member byte
  | .list members => members.any (rule.equal · byte)
  | .array members => members.any (rule.equal · byte)

/-- A byte is in a stop set exactly when it equals one of its members. -/
theorem contains_iff {rule : CaseRule} {byte : UInt8} {set : StopSet} :
    set.contains rule byte = true ↔ ∃ member ∈ set.members, rule.equal member byte = true := by
  cases set <;> simp [contains, members, ← Array.any_toList]

end StopSet

end WireScan
