import WireScan.Buffer
import WireScan.Head
import WireScan.Mark
import WireScan.Numeral

/-!
# Sessions

A session is a buffer that is being read, the guards that are open on it and the marks taken so
far by name. An action is one thing a reader does; `Action.perform` gives its answer, the session
after it and what was noted. A guard remembers the window it found. Unless it was disarmed, its
end puts that window back (`Session.closeGuard`), and at any time before it may be asked to.
-/
namespace WireScan

/-- A window remembered so that it can be put back. -/
structure Guard where
  /-- The window as the guard found it. -/
  saved : Window
  /-- The guard puts the window back when it is dropped. -/
  armed : Bool
deriving DecidableEq, Repr

/-- How a guard ends. -/
inductive Ending
  /-- What was read since stays read. -/
  | commit
  /-- The window goes back, unless the guard was disarmed. -/
  | drop
deriving DecidableEq, Repr

/-- A buffer that is being read. -/
structure Session where
  /-- The buffer. -/
  buffer : Buffer
  /-- The open guards, the innermost first. -/
  guards : List Guard
  /-- The marks by name, the latest first. -/
  marks : List (String × Mark)
deriving DecidableEq, Repr

/-- One thing a reader does. -/
inductive Action
  /-- Ask how far reading has come. -/
  | position
  /-- Ask how many bytes lie ahead. -/
  | available
  /-- Ask whether no byte lies ahead. -/
  | atEnd
  /-- Ask whether a line ends here. -/
  | atLineEnd
  /-- Look at the next byte. -/
  | peek
  /-- Look at the byte after the next. -/
  | peekSecond
  /-- Look at the bytes ahead. -/
  | ahead
  /-- Look at the window. -/
  | contents
  /-- Look at the window from an offset on. -/
  | contentsFrom (offset : Nat)
  /-- Look at everything that is stored. -/
  | storage
  /-- Look at all that lies ahead at once. -/
  | survey
  /-- Ask for the distance from an earlier position. -/
  | distanceFrom (earlier : Nat)
  /-- Ask for the distances to and from a position in other bytes. -/
  | distanceTo (data : List UInt8) (reached : Nat)
  /-- Read a number of bytes. -/
  | advance (count : Nat)
  /-- Empty the window. -/
  | reset
  /-- Read given bytes. -/
  | exactly (expected : List UInt8)
  /-- Read one byte. -/
  | byte (expected : UInt8) (rule : CaseRule)
  /-- Read up to a stop set. -/
  | upTo (stops : StopSet) (rule : CaseRule)
  /-- Read a numeral. -/
  | numeral
  /-- Read a request head. -/
  | head
  /-- Take a mark, in place of an earlier one of that name. -/
  | mark (name : String)
  /-- Ask where marked bytes begin. -/
  | markStart (name : String)
  /-- Ask where marked bytes end. -/
  | markStop (name : String)
  /-- Ask how many bytes are marked. -/
  | markSize (name : String)
  /-- Look at marked bytes. -/
  | markBytes (name : String)
  /-- Look at marked bytes as text. -/
  | markText (name : String)
  /-- Ask whether two marks are the same. -/
  | sameMark (left right : String)
  /-- Put back the window of the innermost guard now. -/
  | rollBack
  /-- Disarm the innermost guard. -/
  | disarm
  /-- Look at the window of the innermost guard. -/
  | savedWindow
deriving DecidableEq, Repr

/-- All that lies ahead at once. -/
structure Survey where
  /-- How far reading has come. -/
  position : Nat
  /-- How many bytes lie ahead. -/
  available : Nat
  /-- No byte lies ahead. -/
  atEnd : Bool
  /-- The next byte. -/
  next : Option UInt8
  /-- The byte after the next. -/
  second : Option UInt8
  /-- A line ends here. -/
  atLineEnd : Bool
  /-- The bytes ahead. -/
  ahead : List UInt8
deriving DecidableEq, Repr

/-- All that lies ahead on a tape. -/
def Tape.survey (tape : Tape) : Survey :=
  ⟨tape.position, tape.available, tape.atEnd, tape.peek?, tape.peekSecond?, tape.atLineEnd,
    tape.ahead⟩

/-- What an action came to. -/
inductive Answer
  /-- It was done. -/
  | done
  /-- A number of bytes, or a position. -/
  | count (value : Nat)
  /-- Yes or no. -/
  | flag (value : Bool)
  /-- A byte, if there is one. -/
  | byte (value : Option UInt8)
  /-- Bytes. -/
  | bytes (value : List UInt8)
  /-- A text. -/
  | text (value : String)
  /-- A window. -/
  | window (value : Window)
  /-- The distances there and back. -/
  | distances (there back : Nat)
  /-- All that lies ahead. -/
  | survey (value : Survey)
  /-- A number read. -/
  | number (value : Binary64)
  /-- A head read. -/
  | head (value : Head)
  /-- The bytes ahead end inside a head. -/
  | headIncomplete
  /-- It was refused. -/
  | fault (cause : Fault)
  /-- It asks for a mark, a guard or a buffer that is not there. -/
  | undefined
deriving DecidableEq, Repr

namespace Answer

/-- The answer to something that may be refused. -/
def ofResult {α : Type} (result : Except Fault α) (answer : α → Answer) : Answer :=
  match result with
  | .ok value => answer value
  | .error cause => fault cause

/-- The action was refused. -/
def isFault : Answer → Bool
  | fault _ => true
  | _ => false

end Answer

/-- What a step of a session came to. -/
structure Step where
  /-- The answer. -/
  answer : Answer
  /-- The session after the step. -/
  session : Session
  /-- What was noted on the way. -/
  notes : List Note
deriving DecidableEq, Repr

namespace Session

/-- A session that begins to read a buffer. -/
def ofBuffer (buffer : Buffer) : Session := ⟨buffer, [], []⟩

/-- The tape being read. -/
def tape (session : Session) : Tape := session.buffer.tape

/-- The window being read. -/
def window (session : Session) : Window := session.tape.window

/-- The session with another tape. -/
def withTape (tape : Tape) (session : Session) : Session :=
  { session with buffer := session.buffer.withTape tape }

/-- A step that changes nothing. -/
def answering (session : Session) (answer : Answer) : Step := ⟨answer, session, []⟩

/-- A step that reads, or is refused and changes nothing. -/
def moving (session : Session) (result : Except Fault Tape) : Step :=
  match result with
  | .ok tape => ⟨.done, session.withTape tape, []⟩
  | .error cause => session.answering (.fault cause)

/-- A step that scans. -/
def passing {α : Type} (session : Session) (passage : Passage α) (answer : α → Answer) : Step :=
  ⟨.ofResult passage.result answer, session.withTape passage.tape, passage.notes⟩

/-- A step that changes nothing and asks about a mark. -/
def marking (session : Session) (name : String) (answer : Mark → Answer) : Step :=
  session.answering ((session.marks.lookup name).elim .undefined answer)

/-- The session with the window of a guard put back. -/
def rolledBack (saved : Window) (session : Session) : Session :=
  session.withTape (session.tape.restore saved)

/-- The session with a guard opened on it. -/
def openGuard (session : Session) : Session :=
  { session with guards := ⟨session.window, true⟩ :: session.guards }

/-- The session with its innermost guard ended, and what that noted. -/
def closeGuard (ending : Ending) (session : Session) : Session × List Note :=
  match session.guards with
  | [] => (session, [])
  | guard :: outer =>
    let freed := { session with guards := outer }
    if guard.armed ∧ ending = .drop then
      (freed.rolledBack guard.saved, [.rolledBack session.window.pos guard.saved.pos])
    else (freed, [])

end Session

/-- Perform an action. -/
def Action.perform (action : Action) (session : Session) : Step :=
  let tape := session.tape
  match action with
  | .position => session.answering (.count tape.position)
  | .available => session.answering (.count tape.available)
  | .atEnd => session.answering (.flag tape.atEnd)
  | .atLineEnd => session.answering (.flag tape.atLineEnd)
  | .peek => session.answering (.byte tape.peek?)
  | .peekSecond => session.answering (.byte tape.peekSecond?)
  | .ahead => session.answering (.bytes tape.ahead)
  | .contents => session.answering (.bytes tape.contents)
  | .contentsFrom offset => session.answering (.bytes (tape.contentsFrom offset))
  | .storage => session.answering (.bytes tape.bytes.toList)
  | .survey => session.answering (.survey tape.survey)
  | .distanceFrom earlier => session.answering (.count (tape.distanceFrom earlier))
  | .distanceTo data reached =>
    session.answering (.ofResult ((Tape.ofBytes data).advance reached) fun other =>
      .distances (tape.distanceTo other) (other.distanceTo tape))
  | .advance count => session.moving (tape.advance count)
  | .reset => session.moving (.ok tape.reset)
  | .exactly expected => session.passing (tape.scan (Scan.exactly expected)) fun _ => .done
  | .byte expected rule => session.passing (tape.scan (Scan.byte expected rule)) fun _ => .done
  | .upTo stops rule => session.passing (tape.scan (Scan.upTo stops rule)) fun _ => .done
  | .numeral => session.passing (tape.scan Numeral.scan) .number
  | .head =>
    session.passing tape.readHead fun
      | some found => .head found
      | none => .headIncomplete
  | .mark name =>
    ⟨.done, { session with marks := (name, Mark.ofTape tape) :: session.marks }, []⟩
  | .markStart name => session.marking name fun taken => .count taken.start
  | .markStop name => session.marking name fun taken => .count (taken.stop tape)
  | .markSize name => session.marking name fun taken => .count (taken.size tape)
  | .markBytes name => session.marking name fun taken => .ofResult (taken.bytes tape) .bytes
  | .markText name => session.marking name fun taken => .ofResult (taken.text tape) .text
  | .sameMark left right =>
    session.marking left fun first =>
      (session.marks.lookup right).elim .undefined fun second => .flag (first = second)
  | .rollBack =>
    match session.guards with
    | [] => session.answering .undefined
    | guard :: _ =>
      ⟨.done, session.rolledBack guard.saved, [.rolledBack tape.window.pos guard.saved.pos]⟩
  | .disarm =>
    match session.guards with
    | [] => session.answering .undefined
    | guard :: outer =>
      ⟨.done, { session with guards := { guard with armed := false } :: outer }, []⟩
  | .savedWindow =>
    session.answering ((session.guards.head?.map Guard.saved).elim .undefined .window)

end WireScan
