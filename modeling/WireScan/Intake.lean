import WireScan.Buffer
import WireScan.Files
import WireScan.Head.Reader

/-!
# Reading a request head from an input

An input arrives in pieces. Each piece is written to a growing buffer and read on from where the
piece before it left the reader, until the head is complete, faulty, or the input ends, which an
empty piece says. `Intake.run` is the whole reading; `Report` is what its verdict shows.
-/
namespace WireScan

/-- How reading an input ended. -/
inductive Verdict
  /-- With a whole head. -/
  | complete (head : Head)
  /-- With the end of the input inside the head. -/
  | unfinished
  /-- With a fault of the buffer or of the head. -/
  | fault (cause : Fault)
  /-- With a file that cannot be read. -/
  | unreadable (refusal : Refusal)
  /-- Before it began, with a size that no store can have. -/
  | oversized
deriving DecidableEq, Repr

/-- What a run shows. -/
structure Report where
  /-- The status the run ends with. -/
  exitCode : UInt8
  /-- What it prints. -/
  output : String
  /-- What it complains of. The words of the runtime, when that breaks a run off, are left out. -/
  errors : String
deriving DecidableEq, Repr

/-- What a run shows that was stopped by a problem. -/
def Report.ofProblem (problem : String) : Report := ⟨1, "", "Error: " ++ problem ++ "\n"⟩

/-- What a verdict shows: the head, or what stood in its way. A size that no store can have breaks
the run off. -/
def Verdict.report : Verdict → Report
  | complete head => ⟨0, head.render, ""⟩
  | unfinished => .ofProblem "input ended inside the request head"
  | fault cause => .ofProblem cause.message
  | unreadable refusal => .ofProblem refusal.message
  | oversized => ⟨101, "", ""⟩

namespace Intake

/-- What one piece came to. -/
inductive Progress
  /-- More is needed. -/
  | waiting (buffer : Growing) (reader : Head.Reader)
  /-- Reading is over. -/
  | ended (verdict : Verdict)
deriving DecidableEq, Repr

/-- Write a piece to the buffer and read on through all that lies ahead. -/
def receive (piece : List UInt8) (buffer : Growing) (reader : Head.Reader) : Progress :=
  match buffer.write piece with
  | .error cause => .ended (.fault cause)
  | .ok written =>
    match reader.readAll written.tape.ahead with
    | .ended (.ok head) => .ended (.complete head)
    | .ended (.error cause) => .ended (.fault cause)
    | .waiting next =>
      if piece = [] then .ended .unfinished
      else .waiting { written with tape := written.tape.skip written.tape.available } next

/-- Read the pieces of an input in order, and then its end. -/
def run : List (List UInt8) → Growing → Head.Reader → Verdict
  | [], buffer, reader =>
    match receive [] buffer reader with
    | .ended verdict => verdict
    | .waiting _ _ => .unfinished
  | piece :: rest, buffer, reader =>
    match receive piece buffer reader with
    | .ended verdict => verdict
    | .waiting buffer reader => run rest buffer reader

/-- Where an input comes from. -/
inductive Source
  /-- A file: every read gets what it asks for. -/
  | file
  /-- A stream, fetched in blocks: a read smaller than a block ends where its block does. -/
  | stream
deriving DecidableEq, Repr

/-- The size of a block of a stream. -/
def Source.block : Nat := 8192

/-- How many bytes a read asks for, at least one, after the given number of bytes. -/
def Source.ask (chunk read : Nat) : Source → Nat
  | file => max 1 chunk
  | stream => if chunk < block then min (max 1 chunk) (block - read % block) else chunk

/-- Every read asks for a byte. -/
theorem Source.ask_pos (chunk read : Nat) (source : Source) : 0 < source.ask chunk read := by
  have inside := Nat.mod_lt read (show 0 < block by decide)
  cases source <;> simp only [ask]
  · omega
  · split <;> omega

/-- The pieces in which data is read after the given number of bytes. -/
def Source.pieces (chunk read : Nat) (source : Source) (data : List UInt8) : List (List UInt8) :=
  if data = [] then []
  else
    let count := source.ask chunk read
    have := source.ask_pos chunk read
    data.take count :: pieces chunk (read + count) source (data.drop count)
termination_by data.length
decreasing_by
  have : 0 < data.length := List.length_pos_iff.mpr ‹_›
  simp only [List.length_drop]
  omega

/-- Nothing of the data is lost or moved by reading it in pieces. -/
theorem Source.flatten_pieces (chunk read : Nat) (source : Source) (data : List UInt8) :
    (source.pieces chunk read data).flatten = data := by
  fun_induction pieces chunk read source data with
  | case1 => rfl
  | case2 read data some count asked rest => rw [List.flatten_cons, rest, List.take_append_drop]

end Intake

end WireScan
