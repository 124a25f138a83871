import WireScan.Proofs.Answers
import WireScan.Proofs.Views
import WireScan.Proofs.Wire

/-!
# The first defect of a head

Reading a head fails for the first defect that its bytes have from left to right, and for nothing
else (`Head.attempt_eq_error_iff_firstDefect`). What can stand where is said without a reader: bytes
reach a place of the head where they have no defect and a field, a word or a line feed comes next
(`Head.Reaches`), and at each place few things are defects (`Head.Place.Defect`). A reader that was
given bytes stands at the place that they reach, with what it read of the next field
(`Head.Reader.After`). Of a field that is no text the fault says where the longest text in front of
it ends and what is broken there (`Tape.readHead_eq_badText_iff`).
-/
namespace WireScan

namespace Head

/-! ## Places -/

/-- What comes next inside a head. -/
inductive Place
  /-- The method. -/
  | method
  /-- The target. -/
  | target
  /-- The word before the version. -/
  | protocol
  /-- The version. -/
  | version
  /-- The line feed that ends a line. -/
  | lineFeed
  /-- The name of a header, or the empty line. -/
  | name
  /-- The value of a header, or spaces before it. -/
  | value
deriving DecidableEq, Repr

namespace Place

/-- The byte that closes the field at a place, where there is one. -/
def close? : Place → Option UInt8
  | method | target => some Byte.space
  | version | value => some Byte.cr
  | name => some colon
  | protocol | lineFeed => none

/-- What comes after a place. -/
def next : Place → Place
  | method => target
  | target => protocol
  | protocol => version
  | version | value => lineFeed
  | lineFeed => name
  | name => value

/-- The bytes may begin a field at a place: an empty line is no name, and spaces come before a
value. -/
def Begins (bytes : List UInt8) : Place → Prop
  | name => ¬Byte.lineEnd <+: bytes
  | value => bytes.head? ≠ some Byte.space
  | _ => True

/-- The bytes come before the byte that closes the field at a place. -/
structure Field (place : Place) (close : UInt8) (bytes : List UInt8) : Prop where
  /-- The byte closes the field. -/
  closes : place.close? = some close
  /-- It is not among the bytes. -/
  absent : close ∉ bytes
  /-- The bytes may begin the field. -/
  begins : place.Begins bytes

end Place

/-- The bytes have no defect, and the head goes on after them at a place. -/
inductive Reaches : List UInt8 → Place → Prop
  /-- A head begins with its method. -/
  | start : Reaches [] .method
  /-- A closed field is a text, and a method is not empty. -/
  | field {before bytes : List UInt8} {close : UInt8} {place : Place} {text : String}
      (reached : Reaches before place) (field : place.Field close bytes)
      (reads : Utf8.decode bytes = .ok text) (filled : place = .method → bytes ≠ []) :
      Reaches (before ++ (bytes ++ [close])) place.next
  /-- The word before the version is the one that is asked for. -/
  | protocol {before : List UInt8} (reached : Reaches before .protocol) :
      Reaches (before ++ protocol) .version
  /-- A line feed ends a line. -/
  | lineFeed {before : List UInt8} (reached : Reaches before .lineFeed) :
      Reaches (before ++ [Byte.lf]) .name
  /-- Spaces before a value are passed over. -/
  | space {before : List UInt8} (reached : Reaches before .value) :
      Reaches (before ++ [Byte.space]) .value

/-- The bytes from a place on begin with a defect. -/
inductive Place.Defect : Place → List UInt8 → Fault → Prop
  /-- The method is empty. -/
  | method (rest : List UInt8) : Defect .method (Byte.space :: rest) .mismatch
  /-- A closed field is no text. -/
  | field {place : Place} {close : UInt8} {bytes : List UInt8} {cause : Utf8.Fault}
      (field : place.Field close bytes) (broken : Utf8.decode bytes = .error cause)
      (rest : List UInt8) : Defect place (bytes ++ close :: rest) (.badText cause)
  /-- As many bytes as the word before the version has are another word. -/
  | protocol {word : List UInt8} (whole : word.length = Head.protocol.length)
      (other : word ≠ Head.protocol) (rest : List UInt8) :
      Defect .protocol (word ++ rest) .mismatch
  /-- A carriage return that closed a field is not followed by a line feed. -/
  | lineFeed {byte : UInt8} (other : byte ≠ Byte.lf) (rest : List UInt8) :
      Defect .lineFeed (byte :: rest) .mismatch

/-- The first defect of bytes is of the kind that a fault says. -/
def FirstDefect (input : List UInt8) (fault : Fault) : Prop :=
  ∃ before rest place, Reaches before place ∧ place.Defect rest fault ∧ input = before ++ rest

/-! ## Fields -/

namespace Place

variable {place : Place} {close : UInt8}

/-- Nothing read yet may begin any field. -/
theorem begins_nil (place : Place) : place.Begins [] := by
  cases place with
  | name => exact fun ends => nomatch List.prefix_nil.mp ends
  | value => exact nofun
  | _ => trivial

/-- What bytes begin their front begins. -/
theorem Begins.front {before after : List UInt8} (begins : place.Begins (before ++ after)) :
    place.Begins before := by
  cases place with
  | name => exact fun ends => begins (ends.trans (List.prefix_append before after))
  | value =>
    cases before with
    | nil => exact nofun
    | cons first rest => exact begins
  | _ => trivial

/-- Where no byte of a field was read none is missing. -/
theorem Field.nil (closes : place.close? = some close) : place.Field close [] :=
  ⟨closes, List.not_mem_nil, place.begins_nil⟩

/-- The front of the bytes of a field comes before its closing byte as well. -/
theorem Field.front {before after : List UInt8} (field : place.Field close (before ++ after)) :
    place.Field close before :=
  ⟨field.closes, fun among => field.absent (List.mem_append_left after among), field.begins.front⟩

/-- The byte that closes a field makes no difference to how the field begins. -/
theorem Field.begins_closed {bytes : List UInt8} (field : place.Field close bytes) :
    place.Begins (bytes ++ [close]) := by
  have begins := field.begins
  cases place with
  | name =>
    cases field.closes
    exact fun ends => begins ((prefix_append_cons_iff (by decide)).mp ends)
  | value =>
    cases field.closes
    cases bytes with
    | nil => exact fun first => absurd (Option.some.inj first) (by decide)
    | cons first rest => exact begins
  | _ => trivial

end Place

/-! ## Stages -/

/-- The place at which a stage reads. -/
def Stage.place : Stage → Place
  | .method => .method
  | .target _ => .target
  | .protocol _ _ => .protocol
  | .version _ _ => .version
  | .lineFeed _ => .lineFeed
  | .name _ => .name
  | .value _ _ => .value

namespace Reader

/-- What a reader goes on with after the text of a field. -/
def goOn (text : String) : Stage → Reading
  | .method => if text.isEmpty then .ended (.error .mismatch) else enter (.target text)
  | .target method => enter (.protocol method text)
  | .version method target => enter (.lineFeed ⟨method, target, text, []⟩)
  | .name head => enter (.value head text)
  | .value head name => enter (.lineFeed { head with headers := (name, text) :: head.headers })
  | stage => enter stage

variable {stage : Stage} {close byte : UInt8} {seen : List UInt8}

/-- In a field a byte is kept, up to the one that closes it. -/
theorem take_field (closes : stage.place.close? = some close)
    (begins : stage.place.Begins (seen.reverse ++ [byte])) :
    (Reader.mk stage seen).take byte =
      if byte = close then (Reader.mk stage seen).close (goOn · stage)
      else (Reader.mk stage seen).keep byte := by
  cases stage with
  | method => cases closes; rfl
  | target method => cases closes; rfl
  | version method target => cases closes; rfl
  | name head =>
    cases closes
    have goes : ¬(byte = Byte.lf ∧ seen = [Byte.cr]) := by
      intro ends
      rw [ends.1, ends.2] at begins
      exact begins (List.prefix_refl _)
    simp only [take, goes, if_false]
    rfl
  | value head name =>
    cases closes
    have goes : ¬(byte = Byte.space ∧ seen = []) := by
      intro passed
      rw [passed.1, passed.2] at begins
      exact begins rfl
    simp only [take, goes, if_false]
    rfl
  | protocol method target => cases closes
  | lineFeed head => cases closes

/-- The text of a field that has no defect leads to the next place. -/
theorem close_field {text : String} (closes : stage.place.close? = some close)
    (reads : Utf8.decode seen.reverse = .ok text)
    (filled : stage.place = .method → seen.reverse ≠ []) :
    ∃ next, (Reader.mk stage seen).close (goOn · stage) = .waiting ⟨next, []⟩ ∧
      next.place = stage.place.next := by
  have found : textOf seen.reverse = .ok text := by
    rw [textOf, reads]
    rfl
  rw [Reader.close, found]
  dsimp only
  cases stage with
  | method =>
    have nonempty : text.isEmpty = false := by
      rw [← Bool.not_eq_true, String.isEmpty_iff]
      intro none
      rw [none] at reads
      exact filled rfl (Utf8.decode_eq_ok_iff.mp reads)
    rw [goOn, nonempty]
    exact ⟨_, rfl, rfl⟩
  | target method => exact ⟨_, rfl, rfl⟩
  | version method target => exact ⟨_, rfl, rfl⟩
  | name head => exact ⟨_, rfl, rfl⟩
  | value head name => exact ⟨_, rfl, rfl⟩
  | protocol method target => cases closes
  | lineFeed head => cases closes

/-- A field that is no text ends the reading. -/
theorem close_broken {cause : Utf8.Fault} (broken : Utf8.decode seen.reverse = .error cause)
    (next : String → Reading) :
    (Reader.mk stage seen).close next = .ended (.error (.badText cause)) := by
  have found : textOf seen.reverse = .error (.badText cause) := by
    rw [textOf, broken]
    rfl
  rw [Reader.close, found]

/-! ## What a reader finds are defects -/

/-- A reader was given bytes: the first of them reach the place where it reads, and the others are
what it read there. -/
structure After (before : List UInt8) (reader : Reader) : Prop where
  /-- Bytes without a defect reach the place. -/
  reached : Reaches before reader.stage.place
  /-- In a field no closing byte was read. -/
  field : ∀ close, reader.stage.place.close? = some close →
    reader.stage.place.Field close reader.seen.reverse
  /-- The word before the version is not read whole. -/
  short : reader.stage.place = .protocol → reader.seen.length < protocol.length
  /-- Nothing is kept before a line feed. -/
  empty : reader.stage.place = .lineFeed → reader.seen = []

/-- A reader that begins a stage stands at its place. -/
theorem After.enter {before : List UInt8} (reached : Reaches before stage.place) :
    (Reader.mk stage []).After before :=
  ⟨reached, fun _ closes => .nil closes, fun _ => Nat.succ_pos 4, fun _ => rfl⟩

/-- What one byte comes to at a place: it is read there, a defect is found that it makes, or the
head ends. -/
def Finds (before : List UInt8) (reader : Reader) (byte : UInt8) : Reading → Prop
  | .waiting next => ∃ passed, next.After passed ∧
      before ++ (reader.seen.reverse ++ [byte]) = passed ++ next.seen.reverse
  | .ended (.error fault) =>
    ∀ rest, reader.stage.place.Defect (reader.seen.reverse ++ byte :: rest) fault
  | .ended (.ok _) => True

/-- A byte that does not close its field is kept. -/
theorem After.keep {before : List UInt8} (after : (Reader.mk stage seen).After before)
    (closes : stage.place.close? = some close)
    (begins : stage.place.Begins (seen.reverse ++ [byte])) (other : byte ≠ close) :
    (Reader.mk stage (byte :: seen)).After before := by
  have longer : stage.place.Field close (byte :: seen).reverse := by
    rw [List.reverse_cons]
    refine ⟨closes, ?_, begins⟩
    rw [List.mem_append, List.mem_singleton]
    exact fun among => among.elim (after.field close closes).absent fun same => other same.symm
  refine ⟨after.reached, ?_, ?_, ?_⟩
  · intro another closes_another
    rw [closes] at closes_another
    cases closes_another
    exact longer
  · intro word
    rw [word] at closes
    cases closes
  · intro feed
    rw [feed] at closes
    cases closes

/-- A byte of a field is kept, or it closes the field, which then is a text or has a defect. -/
theorem After.take_field {before : List UInt8} (after : (Reader.mk stage seen).After before)
    (closes : stage.place.close? = some close)
    (begins : stage.place.Begins (seen.reverse ++ [byte])) :
    Finds before ⟨stage, seen⟩ byte ((Reader.mk stage seen).take byte) := by
  have field := after.field close closes
  rw [Reader.take_field closes begins]
  by_cases ends : byte = close
  · subst ends
    rw [if_pos rfl]
    cases read : Utf8.decode seen.reverse with
    | error cause =>
      rw [close_broken read]
      exact fun rest => .field field read rest
    | ok text =>
      by_cases filled : stage.place = .method → seen.reverse ≠ []
      · obtain ⟨next, waits, place⟩ := close_field closes read filled
        have further : Reaches (before ++ (seen.reverse ++ [byte])) next.place :=
          place ▸ .field after.reached field read filled
        rw [waits]
        exact ⟨_, .enter further, (List.append_nil _).symm⟩
      · -- The one text that is no field is an empty method.
        obtain ⟨place, empty⟩ := Classical.not_imp.mp filled
        have none : seen = [] := List.reverse_eq_nil_iff.mp (not_not.mp empty)
        subst none
        cases stage with
        | method =>
          cases closes
          exact fun rest => .method rest
        | _ => cases place
  · rw [if_neg ends]
    refine ⟨before, after.keep closes begins ends, ?_⟩
    rw [List.reverse_cons]

/-- A byte of the word before the version is kept until the word is whole, which then is the one
asked for or a defect. -/
theorem After.take_word {before : List UInt8} {method target : String}
    (after : (Reader.mk (.protocol method target) seen).After before) :
    Finds before ⟨.protocol method target, seen⟩ byte
      ((Reader.mk (.protocol method target) seen).take byte) := by
  have short : seen.length < 5 := after.short rfl
  rw [take_protocol]
  by_cases shorter : seen.length < 4
  · rw [if_pos shorter]
    refine ⟨before, ⟨after.reached, nofun, fun _ => Nat.succ_lt_succ shorter, nofun⟩, ?_⟩
    rw [List.reverse_cons]
  · rw [if_neg shorter]
    by_cases asked : (byte :: seen).reverse = protocol
    · rw [if_pos asked]
      refine ⟨before ++ protocol, .enter (.protocol after.reached), ?_⟩
      rw [← asked, List.reverse_cons]
      exact (List.append_nil _).symm
    · rw [if_neg asked]
      have whole : (byte :: seen).reverse.length = protocol.length := by
        rw [List.length_reverse, List.length_cons, protocol_eq]
        show seen.length + 1 = 5
        omega
      intro rest
      have parts : seen.reverse ++ byte :: rest = (byte :: seen).reverse ++ rest := by
        rw [List.reverse_cons, List.append_assoc]
        rfl
      exact parts ▸ .protocol whole asked rest

/-- **A byte is read where a reader stands, or it makes a defect there,** unless it ends the
head. -/
theorem After.take {before : List UInt8} {reader : Reader} (after : reader.After before)
    (byte : UInt8) : Finds before reader byte (reader.take byte) := by
  obtain ⟨stage, seen⟩ := reader
  cases stage with
  | method => exact after.take_field rfl trivial
  | target method => exact after.take_field rfl trivial
  | version method target => exact after.take_field rfl trivial
  | name head =>
    by_cases ends : byte = Byte.lf ∧ seen = [Byte.cr]
    · simp only [Reader.take, if_pos ends]
      trivial
    · apply after.take_field rfl
      intro empty
      obtain whole | earlier := List.prefix_concat_iff.mp empty
      · have split : [Byte.cr] ++ [Byte.lf] = seen.reverse ++ [byte] := whole
        have parts := List.append_inj' split rfl
        have returns : seen = [Byte.cr] := List.reverse_eq_iff.mp parts.1.symm
        exact ends ⟨(List.singleton_inj.mp parts.2).symm, returns⟩
      · exact (after.field colon rfl).begins earlier
  | value head name =>
    by_cases passed : byte = Byte.space ∧ seen = []
    · simp only [Reader.take, if_pos passed]
      rw [passed.1, passed.2]
      exact ⟨before ++ [Byte.space], .enter (.space after.reached), (List.append_nil _).symm⟩
    · apply after.take_field rfl
      cases earlier : seen.reverse with
      | nil =>
        have none : seen = [] := List.reverse_eq_nil_iff.mp earlier
        exact fun first => passed ⟨Option.some.inj first, none⟩
      | cons first rest =>
        have begun := (after.field Byte.cr rfl).begins
        dsimp only at begun
        rw [earlier] at begun
        exact begun
  | protocol method target => exact after.take_word
  | lineFeed head =>
    have none : seen = [] := after.empty rfl
    subst none
    by_cases feeds : byte = Byte.lf
    · simp only [Reader.take, if_pos feeds]
      rw [feeds]
      exact ⟨before ++ [Byte.lf], .enter (.lineFeed after.reached), (List.append_nil _).symm⟩
    · simp only [Reader.take, if_neg feeds]
      exact fun rest => .lineFeed feeds rest

/-- **A reading that ends with a fault found a defect of that kind.** By induction on the bytes that
are read on. -/
theorem After.firstDefect {before : List UInt8} {reader : Reader} (after : reader.After before)
    {input : List UInt8} {fault : Fault} (ended : reader.readAll input = .ended (.error fault)) :
    FirstDefect (before ++ (reader.seen.reverse ++ input)) fault := by
  induction input generalizing before reader with
  | nil => cases ended
  | cons byte rest ih =>
    have found := after.take byte
    rw [readAll] at ended
    cases taken : reader.take byte with
    | waiting next =>
      rw [taken] at ended found
      obtain ⟨passed, further, same⟩ := found
      have parts : before ++ (reader.seen.reverse ++ byte :: rest) =
          passed ++ (next.seen.reverse ++ rest) := by
        rw [← List.append_assoc passed, ← same, List.append_assoc, List.append_assoc]
        rfl
      exact parts ▸ ih further ended
    | ended result =>
      rw [taken] at ended found
      cases result with
      | ok head => cases ended
      | error cause =>
        cases ended
        exact ⟨before, _, reader.stage.place, after.reached, found rest, rfl⟩

/-! ## Defects are found -/

/-- The bytes of a field are kept. -/
theorem readAll_field {bytes : List UInt8} (field : stage.place.Field close (seen.reverse ++ bytes))
    (rest : List UInt8) :
    (Reader.mk stage seen).readAll (bytes ++ rest) =
      (Reader.mk stage (bytes.reverse ++ seen)).readAll rest := by
  induction bytes generalizing seen with
  | nil => rfl
  | cons byte bytes ih =>
    have parts : seen.reverse ++ byte :: bytes = (byte :: seen).reverse ++ bytes := by
      rw [List.reverse_cons, List.append_assoc]
      rfl
    have front : stage.place.Field close (byte :: seen).reverse := (parts ▸ field).front
    have other : byte ≠ close := by
      intro same
      apply front.absent
      rw [same, List.reverse_cons]
      exact List.mem_append_right _ (List.mem_singleton_self close)
    have begins := front.begins
    rw [List.reverse_cons] at begins
    rw [List.cons_append, readAll_cons, take_field front.closes begins, if_neg other]
    exact (ih (parts ▸ field)).trans (by rw [List.reverse_cons, List.append_assoc]; rfl)

/-- At the end of a field its closing byte is read. -/
theorem readAll_closed {bytes : List UInt8} (field : stage.place.Field close bytes)
    (rest : List UInt8) :
    (Reader.mk stage []).readAll (bytes ++ close :: rest) =
      ((Reader.mk stage bytes.reverse).close (goOn · stage)).readOn rest := by
  have kept := readAll_field (show stage.place.Field close ([].reverse ++ bytes) from field)
    (close :: rest)
  have begins := field.begins_closed
  rw [← bytes.reverse_reverse] at begins
  rw [kept, List.append_nil, readAll_cons, take_field field.closes begins, if_pos rfl]

/-- Bytes that reach a place bring a reader there. -/
theorem readAll_reaches {before : List UInt8} {place : Place} (reached : Reaches before place) :
    ∃ stage, stage.place = place ∧ start.readAll before = .waiting ⟨stage, []⟩ := by
  induction reached with
  | start => exact ⟨.method, rfl, rfl⟩
  | @field before bytes close place text reached field reads filled ih =>
    obtain ⟨stage, rfl, read⟩ := ih
    rw [← bytes.reverse_reverse] at reads filled
    obtain ⟨next, waits, stands⟩ := close_field field.closes reads filled
    refine ⟨next, stands, ?_⟩
    rw [readAll_append, read]
    dsimp only
    rw [readAll_closed field, waits]
    rfl
  | protocol reached ih =>
    obtain ⟨stage, stands, read⟩ := ih
    cases stage with
    | protocol method target =>
      refine ⟨.version method target, rfl, ?_⟩
      rw [readAll_append, read]
      rfl
    | _ => cases stands
  | lineFeed reached ih =>
    obtain ⟨stage, stands, read⟩ := ih
    cases stage with
    | lineFeed head =>
      refine ⟨.name head, rfl, ?_⟩
      rw [readAll_append, read]
      rfl
    | _ => cases stands
  | space reached ih =>
    obtain ⟨stage, stands, read⟩ := ih
    cases stage with
    | value head name =>
      refine ⟨.value head name, rfl, ?_⟩
      rw [readAll_append, read]
      rfl
    | _ => cases stands

/-- A defect ends a reading. -/
theorem readAll_defect {place : Place} {rest : List UInt8} {fault : Fault}
    (defect : place.Defect rest fault) (stands : stage.place = place) :
    (Reader.mk stage []).readAll rest = .ended (.error fault) := by
  cases defect with
  | method rest =>
    cases stage with
    | method => rfl
    | _ => cases stands
  | @field place close bytes cause field broken rest =>
    subst stands
    rw [← bytes.reverse_reverse] at broken
    rw [readAll_closed field, close_broken broken]
    rfl
  | @protocol word whole other rest =>
    cases stage with
    | protocol method target =>
      match word, whole with
      | [first, second, third, fourth, fifth], _ =>
        simp [readAll, take_protocol, keep, other]
    | _ => cases stands
  | @lineFeed byte other rest =>
    cases stage with
    | lineFeed head => simp only [readAll, Reader.take, if_neg other]
    | _ => cases stands

end Reader

/-- **An attempt at a head is faulty exactly for the first defect of its bytes.** -/
theorem attempt_eq_error_iff_firstDefect {input : List UInt8} {fault : Fault} :
    attempt input = .error fault ↔ FirstDefect input fault := by
  have agreed := Reader.readAll_start input
  constructor
  · intro refused
    match read : Reader.start.readAll input with
    | .waiting reader => simp [read, refused] at agreed
    | .ended (.ok head) => simp [read, refused] at agreed
    | .ended (.error found) =>
      simp only [read, refused, Except.error.injEq] at agreed
      subst agreed
      exact (Reader.After.enter .start).firstDefect read
  · intro defect
    obtain ⟨before, rest, place, reached, found, rfl⟩ := defect
    obtain ⟨stage, stands, read⟩ := Reader.readAll_reaches reached
    have ended : Reader.start.readAll (before ++ rest) = .ended (.error fault) := by
      rw [Reader.readAll_append, read]
      exact Reader.readAll_defect found stands
    rw [ended] at agreed
    exact agreed

end Head

/-! ## What cannot fail -/

/-- Where a stop byte was found the bytes before it can be looked at as marked, and it can be
read. -/
theorem Tape.Sound.mark_of_upTo {tape : Tape} (sound : tape.Sound) {close : UInt8}
    {bytes : List UInt8} (found : (tape.scan (Scan.upTo (.byte close) .exact)).result = .ok bytes) :
    let passed := (tape.scan (Scan.upTo (.byte close) .exact)).tape
    (Mark.ofTape tape).bytes passed = .ok bytes ∧
      (Mark.ofTape tape).text passed = textOf bytes ∧
      (passed.scan (Scan.byte close .exact)).result = .ok () := by
  intro passed
  match read : Scan.upTo (.byte close) .exact tape.ahead with
  | ⟨.error fault, rest, notes⟩ =>
    rw [Tape.scan, read] at found
    cases found
  | ⟨.ok all, rest, notes⟩ =>
    rw [Tape.scan, read] at found
    cases found
    obtain ⟨absent, tail, rfl, ahead⟩ := Scan.upTo_gives_iff.mp ⟨notes, read⟩
    have enough : bytes.length ≤ tape.available := by
      rw [← Tape.length_ahead sound.valid, ahead, List.length_append]
      exact Nat.le_add_right _ _
    have further : passed = { tape with
        window := { tape.window with pos := tape.window.pos + bytes.length } } := by
      have count : tape.ahead.length - (close :: tail).length = bytes.length := by
        rw [ahead, List.length_append, Nat.add_sub_cancel]
      simp only [passed, Tape.scan, read, count]
      exact sound.skip_eq enough
    have valid : passed.Valid := Tape.restore_valid _ _
    have marked : (Mark.ofTape tape).bytes passed = .ok bytes := by
      have current : (Mark.ofTape tape).Current passed := by
        rw [further]
        exact ⟨rfl, rfl, Nat.le_add_right _ _⟩
      have inside : bytes.length ≤ tape.window.stop - tape.window.pos := enough
      have front : (tape.bytes.toList.take (tape.window.pos + bytes.length)).drop tape.window.pos =
          tape.ahead.take bytes.length := by
        rw [Tape.ahead_eq sound.valid, List.drop_take, List.drop_take, List.take_take]
        congr 1
        omega
      rw [ahead, List.take_left] at front
      rw [Mark.bytes_eq valid current, further]
      exact congrArg Except.ok front
    refine ⟨marked, ?_, ?_⟩
    · rw [Mark.text, marked]
    · have left : passed.ahead = close :: tail := by
        rw [further, Tape.ahead_further sound.valid enough, ahead, List.drop_left]
      simp only [Tape.scan, left, Scan.byte, CaseRule.equal, beq_self_eq_true, if_true]

namespace Tape

/-- **Where the text of a field breaks.** Reading a head fails for bytes that are no text exactly
where they are a field that is reached and closed without another defect. The fault counts from the
start of the field: it says where the longest text in front ends, and how many bytes the broken
character after it has. -/
theorem readHead_eq_badText_iff {tape : Tape} {cause : Utf8.Fault} :
    tape.readHead.result = .error (.badText cause) ↔
      ∃ before place close bytes rest, tape.ahead = before ++ (bytes ++ close :: rest) ∧
        Head.Reaches before place ∧ place.Field close bytes ∧
        IsGreatest (Utf8.Fronts bytes) cause.index ∧
        Utf8.Broken (bytes.drop cause.index) cause.length? := by
  rw [readHead_result, Head.attempt_eq_error_iff_firstDefect]
  constructor
  · rintro ⟨before, _, place, reached, defect, parts⟩
    cases defect with
    | @field _ close bytes _ field refused rest =>
      exact ⟨before, place, close, bytes, rest, parts, reached, field,
        Utf8.decode_eq_error_iff.mp refused⟩
  · rintro ⟨before, place, close, bytes, rest, parts, reached, field, found⟩
    exact ⟨before, _, place, reached, .field field (Utf8.decode_eq_error_iff.mpr found) rest, parts⟩

/-- **Reading a head fails for the first defect of the bytes ahead and for nothing else.** On every
sound tape an attempt at a head is refused exactly with the faults of the first defect: other bytes
than those asked for, or a field that is no text, with the fault of its own bytes. With no defect a
head is read, or there is none yet. Nothing else can fail on the way: where the byte that closes a
field was found the marked bytes are those of the field and the byte can be read, and where a line
ends its two bytes can be. -/
theorem readHead_fails_first {tape : Tape} (sound : tape.Sound) :
    (∀ fault, tape.readHead.result = .error fault ↔ Head.FirstDefect tape.ahead fault) ∧
      (∀ fault, tape.readHead.result = .error fault → fault.OfBytes) ∧
      ((∀ fault, ¬Head.FirstDefect tape.ahead fault) →
        (∃ head, tape.readHead.result = .ok (some head)) ∨ tape.readHead.result = .ok none) ∧
      (∀ close bytes,
        let field := tape.scan (Scan.upTo (.byte close) .exact)
        field.result = .ok bytes →
          (Mark.ofTape tape).bytes field.tape = .ok bytes ∧
            (Mark.ofTape tape).text field.tape = textOf bytes ∧
            (field.tape.scan (Scan.byte close .exact)).result = .ok ()) ∧
      (tape.atLineEnd = true → tape.advance 2 = .ok (tape.skip 2)) := by
  have defects : ∀ fault,
      tape.readHead.result = .error fault ↔ Head.FirstDefect tape.ahead fault := by
    intro fault
    rw [readHead_result]
    exact Head.attempt_eq_error_iff_firstDefect
  refine ⟨defects, ?_, ?_, fun close bytes found => sound.mark_of_upTo found, ?_⟩
  · intro fault refused
    rw [readHead_result] at refused
    exact Head.attempt_faultOfBytes refused
  · intro flawless
    match read : tape.readHead.result with
    | .error fault => exact absurd ((defects fault).mp read) (flawless fault)
    | .ok (some head) => exact .inl ⟨head, rfl⟩
    | .ok none => exact .inr rfl
  · intro ends
    have enough : 2 ≤ tape.available := by
      rw [← length_ahead sound.valid]
      exact ((atLineEnd_iff sound.valid).mp ends).length_le
    rw [advance, if_neg (Nat.not_lt.mpr enough)]

/-- Of a version that is no text and a carriage return without a line feed after it the version is
the first defect, and its fault counts from its own start. The method before it is marked as read.
-/
theorem readHead_fails_first_broken_version :
    let tape := ofBytes (Byte.ofAscii "GET / HTTP/1." ++ 255 :: Byte.ofAscii "\r:")
    tape.Sound ∧ Head.FirstDefect tape.ahead (.badText ⟨2, some 1⟩) ∧
      ¬Head.FirstDefect tape.ahead .mismatch ∧
      (Mark.ofTape tape).text (tape.scan (Scan.upTo (.byte Byte.space) .exact)).tape =
        .ok "GET" := by
  intro tape
  have sound : tape.Sound := ⟨ofBytes_valid _, by decide +kernel⟩
  have refused : tape.readHead.result = .error (.badText ⟨2, some 1⟩) := by decide +kernel
  obtain ⟨defects, -, -, marked, -⟩ := readHead_fails_first sound
  have other : tape.readHead.result ≠ .error .mismatch := by
    rw [refused]
    decide
  have method := marked Byte.space (Byte.ofAscii "GET") (by decide +kernel)
  refine ⟨sound, (defects _).mp refused, fun defect => other ((defects _).mpr defect), ?_⟩
  exact method.2.1.trans (by decide +kernel)

end Tape

end WireScan
