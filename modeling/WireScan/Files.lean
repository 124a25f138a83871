/-!
# Files

Which file a path names is for the system to say, and may be anything here: `Files` is one answer
for each path. A path that cannot be opened is refused at once; a directory can be opened, and is
refused when it is read.
-/
namespace WireScan

/-- Why a file cannot be opened or read. -/
structure Refusal where
  /-- The reason in words. -/
  reason : String
  /-- The number of the reason. -/
  code : Nat
deriving DecidableEq, Repr

namespace Refusal

/-- The refusal to read a directory as if it were a file. -/
def directory : Refusal := ⟨"Is a directory", 21⟩

/-- The wording of a refusal. -/
def message (refusal : Refusal) : String :=
  refusal.reason ++ " (os error " ++ toString refusal.code ++ ")"

end Refusal

/-- What was opened. -/
inductive Node
  /-- A directory. -/
  | directory
  /-- A file that holds bytes. -/
  | bytes (data : List UInt8)
deriving DecidableEq, Repr

/-- The bytes that reading gives. -/
def Node.contents : Node → Except Refusal (List UInt8)
  | directory => .error .directory
  | bytes data => .ok data

/-- What opening each path gives. -/
abbrev Files := String → Except Refusal Node

end WireScan
