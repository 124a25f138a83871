import WireScan.Script

/-!
# Commands

A command is what the owner of a buffer does with it between readings: look at it, place its
window, add bytes to it, clear it, or let a reader run a script over it. The commands that add
bytes exist for the kinds of buffer that take them. Two more ways lead into a growing buffer, as
a sink for text written in parts and as a sink for bytes; what they store is what `Growing.write`
stores, and only their refusals read differently (`SinkFault`).
-/
namespace WireScan

/-- Why a sink refused what it was given. -/
inductive SinkFault
  /-- A part of a text was refused. -/
  | formatting
  /-- Bytes were refused. -/
  | outOfMemory (cause : Fault)
deriving DecidableEq, Repr

/-- The wording of a sink's refusal. -/
def SinkFault.message : SinkFault → String
  | formatting => "an error occurred when formatting an argument"
  | outOfMemory cause => cause.message

/-- One thing the owner of a buffer does with it. -/
inductive Command
  /-- What a reader can do as well. -/
  | act (action : Action)
  /-- Read one byte. -/
  | take
  /-- Place the window. -/
  | place (window : Window)
  /-- Look at the whole buffer. -/
  | inspect
  /-- Add bytes to a buffer of fixed capacity. -/
  | feed (data : List UInt8)
  /-- Add bytes to a growing buffer. -/
  | write (data : List UInt8)
  /-- Add one byte to a growing buffer. -/
  | writeOne (byte : UInt8)
  /-- Add a text in parts to a growing buffer. -/
  | format (parts : List String)
  /-- Send bytes to a growing buffer. -/
  | send (data : List UInt8)
  /-- Send bytes to a growing buffer until all are there. -/
  | sendAll (data : List UInt8)
  /-- See to it that what was sent to a growing buffer is there. -/
  | flush
  /-- Forget all that a buffer stores. -/
  | clear
  /-- Let a reader run a script, after a number of bytes if one is given. -/
  | read (skipped : Option Nat) (script : Script)
deriving DecidableEq, Repr

/-- What a command came to. -/
inductive Reply
  /-- An answer. -/
  | answer (value : Answer)
  /-- The whole buffer. -/
  | buffer (value : Buffer)
  /-- What a reader recorded. -/
  | transcript (value : Transcript)
  /-- A sink refused. -/
  | refusal (cause : SinkFault)
deriving DecidableEq, Repr

/-- A command that was carried out. -/
structure Entry where
  /-- What it came to. -/
  reply : Reply
  /-- The session after it. -/
  session : Session
  /-- What was noted on the way, apart from what a reader recorded. -/
  notes : List Note
deriving DecidableEq, Repr

namespace Session

/-- An entry that changes nothing. -/
def replying (session : Session) (reply : Reply) : Entry := ⟨reply, session, []⟩

/-- The entry of a step. -/
def stepping (step : Step) : Entry := ⟨.answer step.answer, step.session, step.notes⟩

/-- An entry that adds bytes to a growing buffer, or is refused and changes nothing. -/
def writing (session : Session) (buffer : Growing) (data : List UInt8) (reply : Reply)
    (refusal : Fault → Reply) : Entry :=
  let notes := buffer.writeNotes data
  match buffer.write data with
  | .ok written => ⟨reply, { session with buffer := .growing written }, notes⟩
  | .error fault => ⟨refusal fault, session, notes⟩

/-- An entry in which a reader runs a script. -/
def reading (session : Session) (script : Script) : Entry :=
  let run := script.run false session
  ⟨.transcript run.transcript, run.session, []⟩

end Session

namespace Command

/-- Carry out a command. -/
def perform (command : Command) (session : Session) : Entry :=
  match command, session.buffer with
  | act action, _ => Session.stepping (action.perform session)
  | take, _ =>
    match session.tape.take? with
    | some (byte, tape) => ⟨.answer (.byte (some byte)), session.withTape tape, []⟩
    | none => session.replying (.answer (.byte none))
  | place window, _ =>
    ⟨.answer .done, session.withTape (session.tape.restore window), []⟩
  | inspect, buffer => session.replying (.buffer buffer)
  | feed data, .fixed buffer =>
    match buffer.feed data with
    | .ok fed => ⟨.answer .done, { session with buffer := .fixed fed }, buffer.feedNotes data⟩
    | .error fault => ⟨.answer (.fault fault), session, buffer.feedNotes data⟩
  | write data, .growing buffer =>
    session.writing buffer data (.answer (.count data.length)) fun fault => .answer (.fault fault)
  | writeOne byte, .growing buffer =>
    session.writing buffer [byte] (.answer .done) fun fault => .answer (.fault fault)
  | format parts, .growing buffer =>
    let written := buffer.writeParts parts
    ⟨if written.complete then .answer .done else .refusal .formatting,
      { session with buffer := .growing written.buffer }, written.notes⟩
  | send data, .growing buffer =>
    session.writing buffer data (.answer (.count data.length)) fun fault =>
      .refusal (.outOfMemory fault)
  | sendAll data, .growing buffer =>
    if data = [] then session.replying (.answer .done)
    else session.writing buffer data (.answer .done) fun fault => .refusal (.outOfMemory fault)
  | flush, .growing _ => session.replying (.answer .done)
  | clear, .fixed buffer => ⟨.answer .done, { session with buffer := .fixed buffer.clear }, []⟩
  | clear, .growing buffer =>
    ⟨.answer .done, { session with buffer := .growing buffer.clear }, []⟩
  | read none script, _ => session.reading script
  | read (some count) script, _ =>
    match session.tape.advance count with
    | .ok tape => (session.withTape tape).reading script
    | .error fault => session.replying (.answer (.fault fault))
  | _, _ => session.replying (.answer .undefined)

/-- Carry out commands in order. -/
def performAll : List Command → Session → List Entry
  | [], _ => []
  | command :: rest, session =>
    let entry := command.perform session
    entry :: performAll rest entry.session

end Command

end WireScan
