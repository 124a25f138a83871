import WireScan.Options

/-!
# The command line

Reads a request head from a file or from the standard input and prints it. The options and what
becomes of every piece of input are settled by `Options` and `Intake`; here they meet the system.
-/
namespace WireScan.Intake

/-- Receive the pieces that a stream gives until reading ends. -/
partial def receiveAll (stream : IO.FS.Stream) (source : Source) (chunk read : Nat)
    (buffer : Growing) (reader : Head.Reader) : IO Verdict := do
  let piece ← stream.read (source.ask chunk read).toUSize
  match receive piece.toList buffer reader with
  | .ended verdict => return verdict
  | .waiting buffer reader => receiveAll stream source chunk (read + piece.size) buffer reader

/-- Why the system would not give an input. -/
def refusal : IO.Error → Refusal
  | .noFileOrDirectory _ code reason | .permissionDenied _ code reason
  | .inappropriateType _ code reason | .invalidArgument _ code reason
  | .noSuchThing _ code reason | .resourceExhausted _ code reason => ⟨reason, code.toNat⟩
  | .hardwareFault code reason | .otherError code reason => ⟨reason, code.toNat⟩
  | error => ⟨toString error, 0⟩

/-- The verdict on the input that options name. -/
def verdict (options : Options) : IO Verdict := do
  try
    let stream ← match options.file with
      | some file => IO.FS.Stream.ofHandle <$> IO.FS.Handle.mk file .read
      | none => IO.getStdin
    match options.buffer?, options.chunk? with
    | some buffer, some chunk => receiveAll stream options.source chunk 0 buffer .start
    | _, _ => return .oversized
  catch error => return .unreadable (refusal error)

end WireScan.Intake

/-- Print the head that the arguments' input begins with, or what stands in its way. -/
def main (arguments : List String) : IO UInt32 := do
  match WireScan.Options.ofArguments arguments with
  | .error fault =>
    IO.eprintln ("error: " ++ fault.message)
    return 2
  | .ok options =>
    let report := (← WireScan.Intake.verdict options).report
    IO.print report.output
    IO.eprint report.errors
    return report.exitCode.toUInt32
