/-!
# Notes

What the library reports about its work while it goes on: refused and growing stores, rolled
back windows, and scans that ran into the end of the bytes. A note carries its numbers; its
level and wording are functions of it.
-/
namespace WireScan

/-- How closely a reader must look to see a note. -/
inductive Level
  /-- For those who follow what happens to a buffer. -/
  | debug
  /-- For those who follow every step. -/
  | trace
deriving DecidableEq, Repr

/-- The name of a level. -/
def Level.name : Level → String
  | debug => "DEBUG"
  | trace => "TRACE"

/-- Something that happened on the way. -/
inductive Note
  /-- Bytes were refused by a store of fixed capacity. -/
  | feedRefused (length used capacity : Nat)
  /-- Bytes were refused by a store that would have to grow past its limit. -/
  | writeRefused (needed limit : Nat)
  /-- A store grew. -/
  | grew (before after : Nat)
  /-- A window went back to where a guard found it. -/
  | rolledBack (before after : Nat)
  /-- A scan for a stop byte met none in the bytes that were left. -/
  | ranOut (length : Nat)
  /-- The bytes ended inside a request head, read as far as the given position. -/
  | headIncomplete (position : Nat)
deriving DecidableEq, Repr

namespace Note

/-- The level of a note. -/
def level : Note → Level
  | rolledBack _ _ | ranOut _ => .trace
  | _ => .debug

/-- The wording of a note. -/
def message : Note → String
  | feedRefused length used capacity =>
    "feed of " ++ toString length ++ " bytes rejected: " ++ toString used ++ " of "
      ++ toString capacity ++ " bytes used"
  | writeRefused needed limit =>
    "write rejected: " ++ toString needed ++ " bytes needed, buffer limited to "
      ++ toString limit ++ " bytes"
  | grew before after =>
    "growing buffer from " ++ toString before ++ " to " ++ toString after ++ " bytes"
  | rolledBack before after =>
    "reverting window from pos " ++ toString before ++ " to pos " ++ toString after
  | ranOut length => "match_until hit EOF after " ++ toString length ++ " bytes"
  | headIncomplete position =>
    "request head incomplete after " ++ toString position ++ " bytes"

/-- A note as one line: its level, a space and its wording. -/
def line (note : Note) : String := note.level.name ++ " " ++ note.message

end Note

end WireScan
