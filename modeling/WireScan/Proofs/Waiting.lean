import WireScan.Proofs.LookAhead

/-!
# Waiting for more bytes

A refusal is mendable where more bytes in the same place would have made the action succeed. What a
fault says of this (`Fault.wantsMore`) is exact for a number of bytes and for a single byte. Given
bytes lack data as long as fewer lie ahead, whatever those are, and are mendable only where those
are the first of them. A scan for a stop byte and a numeral never lack data: the first is mendable
whenever there is a stop byte, the second where a literal was cut short before anything could be
read of it (`Numeral.Stub`).
-/
namespace WireScan

/-! ## Scans -/

/-- More bytes make the scan come to a value. -/
def Scan.Mendable {α : Type} (scan : Scan α) (input : List UInt8) : Prop :=
  ∃ more value, (scan (input ++ more)).result = .ok value

/-- What was refused has no value. -/
theorem no_value_of_refused {α : Type} {result : Except Fault α} {fault : Fault}
    (refused : result = .error fault) : ¬∃ value, result = .ok value := by
  intro ⟨value, read⟩
  rw [read] at refused
  cases refused

namespace Scan

/-- A byte is read exactly where one stands that is equal to it. -/
theorem byte_ok_iff {expected : UInt8} {rule : CaseRule} {input : List UInt8} :
    (∃ value, (byte expected rule input).result = .ok value) ↔
      ∃ next rest, input = next :: rest ∧ rule.equal expected next = true := by
  cases input with
  | nil =>
    constructor
    · intro ⟨value, never⟩
      cases never
    · intro ⟨next, rest, never, _⟩
      cases never
  | cons next rest =>
    by_cases equal : rule.equal expected next = true
    · have read : byte expected rule (next :: rest) = ⟨.ok (), rest, []⟩ := if_pos equal
      rw [read]
      exact ⟨fun _ => ⟨next, rest, rfl, equal⟩, fun _ => ⟨(), rfl⟩⟩
    · have read : byte expected rule (next :: rest) = ⟨.error .mismatch, next :: rest, []⟩ :=
        if_neg equal
      rw [read]
      constructor
      · intro ⟨value, never⟩
        cases never
      · intro ⟨first, later, parts, same⟩
        rw [(List.cons.inj parts).1] at equal
        exact absurd same equal

/-- The refusal of a byte lacks data exactly where more bytes mend it. -/
theorem byte_mendable_iff {expected : UInt8} {rule : CaseRule} {input : List UInt8} {fault : Fault}
    (refused : (byte expected rule input).result = .error fault) :
    fault.wantsMore = true ↔ (byte expected rule).Mendable input := by
  cases input with
  | nil =>
    have lacks : Fault.tooFew 1 0 = fault := Except.error.inj refused
    have same : rule.equal expected expected = true := CaseRule.equal_iff.mpr rfl
    have helped := byte_ok_iff.mpr ⟨expected, [], rfl, same⟩
    rw [← lacks]
    exact ⟨fun _ => ⟨[expected], helped⟩, fun _ => rfl⟩
  | cons next rest =>
    have differs : ¬rule.equal expected next = true := by
      intro equal
      exact no_value_of_refused refused (byte_ok_iff.mpr ⟨next, rest, rfl, equal⟩)
    have mismatch : fault = .mismatch := by
      rw [byte, if_neg differs] at refused
      exact (Except.error.inj refused).symm
    rw [mismatch]
    constructor
    · intro never
      cases never
    · rintro ⟨more, helped⟩
      obtain ⟨first, later, parts, equal⟩ := byte_ok_iff.mp helped
      rw [List.cons_append] at parts
      rw [← (List.cons.inj parts).1] at equal
      exact absurd equal differs

/-- Given bytes are read exactly where they stand at the front. -/
theorem exactly_ok_iff {expected input : List UInt8} :
    (∃ value, (exactly expected input).result = .ok value) ↔ expected <+: input := by
  constructor
  · intro ⟨value, read⟩
    unfold exactly at read
    split at read
    · rename_i front
      exact List.isPrefixOf_iff_prefix.mp front
    · split at read <;> cases read
  · intro ⟨rest, parts⟩
    rw [← parts, exactly_append]
    exact ⟨(), rfl⟩

/-- The refusal of given bytes lacks data exactly where fewer bytes lie ahead. -/
theorem exactly_wantsMore_iff {expected input : List UInt8} {fault : Fault}
    (refused : (exactly expected input).result = .error fault) :
    fault.wantsMore = true ↔ input.length < expected.length := by
  unfold exactly at refused
  split at refused
  · cases refused
  · split at refused <;> rename_i short
    · rw [← Except.error.inj refused]
      exact ⟨fun _ => short, fun _ => rfl⟩
    · rw [← Except.error.inj refused]
      constructor
      · intro never
        cases never
      · intro few
        exact absurd few short

/-- More bytes mend the refusal of given bytes exactly where it lacks data and the bytes ahead are
the first of them. -/
theorem exactly_mendable_iff {expected input : List UInt8} {fault : Fault}
    (refused : (exactly expected input).result = .error fault) :
    (exactly expected).Mendable input ↔ fault.wantsMore = true ∧ input <+: expected := by
  have unread : ¬expected <+: input := by
    intro front
    exact no_value_of_refused refused (exactly_ok_iff.mpr front)
  constructor
  · intro ⟨more, helped⟩
    have whole : expected <+: input ++ more := exactly_ok_iff.mp helped
    have short : input.length < expected.length := by
      apply Nat.lt_of_not_le
      intro long
      exact unread (List.prefix_of_prefix_length_le whole (List.prefix_append _ _) long)
    refine ⟨(exactly_wantsMore_iff refused).mpr short, ?_⟩
    exact List.prefix_of_prefix_length_le (List.prefix_append _ _) whole (Nat.le_of_lt short)
  · intro ⟨_, more, parts⟩
    have front : expected <+: input ++ more := parts ▸ List.prefix_refl expected
    exact ⟨more, exactly_ok_iff.mpr front⟩

/-- A scan for a stop byte comes to a value exactly where one lies ahead. -/
theorem upTo_ok_iff {stops : StopSet} {rule : CaseRule} {input : List UInt8} :
    (∃ value, (upTo stops rule input).result = .ok value) ↔
      ∃ next ∈ input, stops.contains rule next = true := by
  have none : input.dropWhile (!stops.contains rule ·) = [] ↔
      ¬∃ next ∈ input, stops.contains rule next = true := by
    rw [List.dropWhile_eq_nil_iff]
    simp only [Bool.not_eq_true', not_exists, not_and, Bool.not_eq_true]
  unfold upTo
  split <;> rename_i left
  · constructor
    · intro ⟨value, never⟩
      cases never
    · intro found
      exact absurd found (none.mp left)
  · constructor
    · intro _
      apply Classical.byContradiction
      intro missing
      rw [none.mpr missing] at left
      exact left rfl
    · intro _
      exact ⟨_, rfl⟩

/-- The refusal of a scan for a stop byte never lacks data. -/
theorem upTo_wantsMore {stops : StopSet} {rule : CaseRule} {input : List UInt8} {fault : Fault}
    (refused : (upTo stops rule input).result = .error fault) : fault.wantsMore = false := by
  unfold upTo at refused
  split at refused
  · rw [← Except.error.inj refused]
    rfl
  · cases refused

/-- More bytes mend a scan for a stop byte exactly where there is a stop byte. -/
theorem upTo_mendable_iff {stops : StopSet} {rule : CaseRule} {input : List UInt8} :
    (upTo stops rule).Mendable input ↔ stops.members ≠ [] := by
  constructor
  · intro ⟨more, helped⟩ none
    have ⟨next, _, stop⟩ := upTo_ok_iff.mp helped
    have ⟨member, among, _⟩ := StopSet.contains_iff.mp stop
    rw [none] at among
    cases among
  · intro some
    have ⟨member, rest, parts⟩ := List.exists_cons_of_ne_nil some
    have among : member ∈ stops.members := by
      rw [parts]
      exact List.mem_cons_self
    have stop : stops.contains rule member = true :=
      StopSet.contains_iff.mpr ⟨member, among, CaseRule.equal_iff.mpr rfl⟩
    have ahead : member ∈ input ++ [member] := List.mem_append_right input List.mem_cons_self
    exact ⟨[member], upTo_ok_iff.mpr ⟨member, ahead, stop⟩⟩

end Scan

/-! ## Numerals -/

namespace Numeral

/-- An opening of a literal that is cut short: nothing, a point, or the first letters of a short
word. -/
inductive Cut : List UInt8 → Prop
  /-- Nothing of it. -/
  | nothing : Cut []
  /-- A point that waits for a digit. -/
  | point : Cut ['.'.toUInt8]
  /-- The first letters of a short word in any case, but not all. -/
  | letters {word : String} {letters : List UInt8} (short : word = "inf" ∨ word = "nan")
    (begun : letters.map Byte.fold <+: Byte.ofAscii word)
    (unfinished : letters.length < (Byte.ofAscii word).length) : Cut letters

/-- A literal that is cut short before anything can be read of it: a sign, or none, and an opening
that is cut short. -/
inductive Stub : List UInt8 → Prop
  /-- The sign and the rest. -/
  | signed {signs bytes : List UInt8} {negative : Bool} (signed : Signs signs negative)
    (cut : Cut bytes) : Stub (signs ++ bytes)

/-- Nothing at all may become a literal. -/
theorem Stub.nothing : Stub [] := .signed .none .nothing

/-- An opening cut anywhere is cut short. -/
theorem Opening.cut {opening bytes : List UInt8} (opens : Opening opening)
    (front : bytes <+: opening) (short : bytes.length < opening.length) : Cut bytes := by
  cases opens with
  | digit is_digit =>
    have none : bytes = [] := List.eq_nil_of_length_eq_zero (Nat.lt_one_iff.mp short)
    rw [none]
    exact .nothing
  | @point digit is_digit =>
    cases bytes with
    | nil => exact .nothing
    | cons first rest =>
      have ⟨same, _⟩ := List.cons_prefix_cons.mp front
      have size : rest.length + 1 < 2 := short
      have none : rest = [] := List.eq_nil_of_length_eq_zero (by omega)
      rw [same, none]
      exact .point
  | @word word _ known cased =>
    have begun : bytes.map Byte.fold <+: Byte.ofAscii word := by
      rw [← show opening.map Byte.fold = Byte.ofAscii word from cased]
      exact front.map Byte.fold
    exact .letters known begun (by rw [← cased.length_eq]; exact short)

/-- What is cut short can be completed. -/
theorem Cut.exists_opening {bytes : List UInt8} (cut : Cut bytes) :
    ∃ more, Opening (bytes ++ more) := by
  have zero : Byte.isDigit '0'.toUInt8 = true := by decide
  cases cut with
  | nothing => exact ⟨['0'.toUInt8], .digit zero⟩
  | point => exact ⟨['0'.toUInt8], .point zero⟩
  | @letters word letters known begun unfinished =>
    have small : (Byte.ofAscii word).map Byte.fold = Byte.ofAscii word := by
      rcases known with rfl | rfl
      · decide
      · decide
    have ⟨rest, parts⟩ := begun
    -- The missing letters are small already, since those of the word are.
    have folded : rest.map Byte.fold = rest := by
      have whole := small
      rw [← parts, List.map_append] at whole
      exact (List.append_inj whole (List.length_map _)).2
    have cased : Cased word (bytes ++ rest) := by
      rw [Cased, List.map_append, folded]
      exact parts
    exact ⟨rest, .word known cased⟩

/-- A sign and an opening cut anywhere are a literal cut short. -/
theorem Stub.of_front {signs opening bytes : List UInt8} {negative : Bool}
    (signed : Signs signs negative) (opens : Opening opening)
    (front : bytes <+: signs ++ opening) (short : bytes.length < (signs ++ opening).length) :
    Stub bytes := by
  have after : ∀ {sign : UInt8} {negative : Bool}, Signs [sign] negative →
      bytes <+: sign :: opening → bytes.length < opening.length + 1 → Stub bytes := by
    intro sign negative signed front short
    cases bytes with
    | nil => exact .nothing
    | cons first rest =>
      have ⟨same, later⟩ := List.cons_prefix_cons.mp front
      rw [same]
      exact .signed signed (opens.cut later (Nat.lt_of_succ_lt_succ short))
  cases signed with
  | none => exact .signed .none (opens.cut front short)
  | plus => exact after .plus front short
  | minus => exact after .minus front short

/-- Where no literal stands more bytes make one exactly of what is cut short. -/
theorem exists_read?_iff {input : List UInt8} (unread : read? input = none) :
    (∃ more, read? (input ++ more) ≠ none) ↔ Stub input := by
  constructor
  · intro ⟨more, helped⟩
    have ⟨found, read⟩ := Option.ne_none_iff_exists'.mp helped
    have ⟨literal, said, parts⟩ := exists_says read
    have ⟨signs, negative, opening, signed, opens, begins⟩ := Literal.exists_opening ⟨_, said⟩
    have front : signs ++ opening <+: input ++ more := begins.trans ⟨_, parts.symm⟩
    have missing : ¬signs ++ opening <+: input := fun inside =>
      read?_eq_none_iff.mp unread _ inside (opens.literal signed)
    have short : input.length < (signs ++ opening).length := by
      apply Nat.lt_of_not_le
      intro long
      exact missing (List.prefix_of_prefix_length_le front (List.prefix_append _ _) long)
    have cut : input <+: signs ++ opening :=
      List.prefix_of_prefix_length_le (List.prefix_append _ _) front (Nat.le_of_lt short)
    exact .of_front signed opens cut short
  · intro stub
    cases stub with
    | @signed signs bytes negative signed cut =>
      have ⟨more, opens⟩ := cut.exists_opening
      have ⟨numeral, said⟩ := opens.literal signed
      refine ⟨more, ?_⟩
      rw [List.append_assoc, said.read?_eq]
      intro never
      cases never

/-- A number is read exactly where a literal stands after the blank bytes. -/
theorem scan_ok_iff {input : List UInt8} :
    (∃ value, (scan input).result = .ok value) ↔ read? (input.dropWhile Byte.isBlank) ≠ none := by
  unfold scan
  cases read? (input.dropWhile Byte.isBlank) with
  | none =>
    constructor
    · intro ⟨value, never⟩
      cases never
    · intro never
      exact absurd rfl never
  | some found =>
    constructor
    · intro _ never
      cases never
    · intro _
      exact ⟨_, rfl⟩

/-- The refusal of a numeral never lacks data. -/
theorem scan_wantsMore {input : List UInt8} {fault : Fault}
    (refused : (scan input).result = .error fault) : fault.wantsMore = false := by
  unfold scan at refused
  split at refused
  · cases refused
  · rw [← Except.error.inj refused]
    rfl

/-- More bytes mend the refusal of a numeral exactly where a literal is cut short after the blank
bytes. -/
theorem scan_mendable_iff {input : List UInt8} {fault : Fault}
    (refused : (scan input).result = .error fault) :
    scan.Mendable input ↔ Stub (input.dropWhile Byte.isBlank) := by
  have unread : read? (input.dropWhile Byte.isBlank) = none := by
    apply Classical.byContradiction
    intro some
    exact no_value_of_refused refused (scan_ok_iff.mpr some)
  by_cases blank : input.dropWhile Byte.isBlank = []
  · -- The bytes that come may begin with blank ones too; a digit will do.
    have helped : scan.Mendable input := by
      refine ⟨['0'.toUInt8], scan_ok_iff.mpr ?_⟩
      rw [List.dropWhile_append, blank]
      decide
    rw [blank]
    exact ⟨fun _ => .nothing, fun _ => helped⟩
  · have further : ∀ more, (input ++ more).dropWhile Byte.isBlank =
        input.dropWhile Byte.isBlank ++ more := fun more => (takeWhile_settled blank more).2
    rw [← exists_read?_iff unread]
    constructor
    · intro ⟨more, helped⟩
      have read := scan_ok_iff.mp helped
      rw [further] at read
      exact ⟨more, read⟩
    · intro ⟨more, read⟩
      rw [← further] at read
      exact ⟨more, scan_ok_iff.mpr read⟩

end Numeral

/-! ## Sessions -/

namespace Session

open Numeral

variable {session : Session}

/-- The session with more bytes after those ahead. -/
structure Continues (session longer : Session) (more : List UInt8) : Prop where
  /-- The window lies inside the store. -/
  valid : longer.tape.Valid
  /-- The window begins and stands where it did, and stops further by the bytes. -/
  window : longer.window = { session.window with stop := session.window.stop + more.length }
  /-- The bytes come after those that lay ahead. -/
  ahead : longer.tape.ahead = session.tape.ahead ++ more

/-- The action succeeds in the same place with more bytes after those ahead. -/
def Mendable (action : Action) (session : Session) : Prop :=
  ∃ more longer, session.Continues longer more ∧ (action.perform longer).answer.isFault = false

/-- Any bytes may come after those ahead. -/
theorem exists_continues (valid : session.tape.Valid) (more : List UInt8) :
    ∃ longer, session.Continues longer more := by
  have ⟨ordered, reached, bounded⟩ := valid
  have size : (session.tape.bytes.toList.take session.window.stop).length =
      session.window.stop := by
    rw [List.length_take, Array.length_toList]
    exact Nat.min_eq_left bounded
  let tape : Tape :=
    ⟨(session.tape.bytes.toList.take session.window.stop ++ more).toArray,
      { session.window with stop := session.window.stop + more.length }⟩
  have within : tape.Valid := by
    refine ⟨ordered, Nat.le_trans reached (Nat.le_add_right _ _), Nat.le_of_eq ?_⟩
    change session.window.stop + more.length = (_ ++ more).toArray.size
    rw [List.size_toArray, List.length_append, size]
  have held : (session.withTape tape).tape = tape := Buffer.tape_withTape tape session.buffer
  refine ⟨session.withTape tape, ?_, ?_, ?_⟩
  · rw [held]
    exact within
  · rw [Session.window, held]
  · have inside : session.window.pos ≤
        (session.tape.bytes.toList.take session.window.stop).length := by
      rw [size]
      exact reached
    have all : (session.tape.bytes.toList.take session.window.stop ++ more).length ≤
        session.window.stop + more.length := by
      rw [List.length_append, size]
    rw [held, Tape.ahead_eq within, Tape.ahead_eq valid]
    change List.drop session.window.pos (List.take (session.window.stop + more.length) _) = _
    rw [List.take_of_length_le all, List.drop_append_of_le_length inside]
    rfl

/-- What scans the bytes ahead is mended where its scan is. -/
theorem mendable_iff_scan {α : Type} {action : Action} {scan : Scan α} {answer : α → Answer}
    (valid : session.tape.Valid)
    (scans : ∀ session : Session,
      (action.perform session).answer = .ofResult (scan session.tape.ahead).result answer)
    (reads : ∀ value, (answer value).isFault = false) :
    session.Mendable action ↔ scan.Mendable session.tape.ahead := by
  constructor
  · intro ⟨more, longer, continues, succeeds⟩
    rw [scans, continues.ahead] at succeeds
    match came : (scan (session.tape.ahead ++ more)).result with
    | .ok value => exact ⟨more, value, came⟩
    | .error fault =>
      rw [came] at succeeds
      cases succeeds
  · intro ⟨more, value, came⟩
    have ⟨longer, continues⟩ := exists_continues valid more
    refine ⟨more, longer, continues, ?_⟩
    rw [scans, continues.ahead, came]
    exact reads value

/-- A fault of what scans is a fault of its scan. -/
theorem refused_scan {α : Type} {result : Except Fault α} (answer : α → Answer) {fault : Fault}
    (refused : Answer.ofResult result answer = .fault fault)
    (reads : ∀ value, (answer value).isFault = false) : result = .error fault := by
  cases result with
  | ok value =>
    have never := reads value
    rw [show answer value = .fault fault from refused] at never
    cases never
  | error cause =>
    cases refused
    rfl

/-- The refusal of a number of bytes lacks data, and enough bytes mend it. -/
theorem advance_mendable {count : Nat} {fault : Fault} (valid : session.tape.Valid)
    (refused : ((Action.advance count).perform session).answer = .fault fault) :
    fault.wantsMore = true ∧ session.Mendable (.advance count) := by
  have answers : ∀ session : Session, ((Action.advance count).perform session).answer =
      if session.tape.available < count then .fault (.tooFew count session.tape.available)
      else .done := by
    intro session
    change (session.moving (session.tape.advance count)).answer = _
    unfold moving Tape.advance
    by_cases few : session.tape.available < count
    · rw [if_pos few, if_pos few]
      rfl
    · rw [if_neg few, if_neg few]
  have ⟨longer, continues⟩ := exists_continues valid (List.replicate count 0)
  have enough : count ≤ longer.tape.available := by
    rw [← Tape.length_ahead continues.valid, continues.ahead, List.length_append,
      List.length_replicate]
    exact Nat.le_add_left _ _
  constructor
  · rw [answers] at refused
    split at refused
    · cases refused
      rfl
    · cases refused
  · refine ⟨_, longer, continues, ?_⟩
    rw [answers, if_neg (Nat.not_lt.mpr enough)]
    rfl

/-- The refusal of a single byte lacks data exactly where it is mendable. -/
theorem byte_refused {expected : UInt8} {rule : CaseRule} {fault : Fault}
    (valid : session.tape.Valid)
    (refused : ((Action.byte expected rule).perform session).answer = .fault fault) :
    fault.wantsMore = true ↔ session.Mendable (.byte expected rule) := by
  have failed : (Scan.byte expected rule session.tape.ahead).result = .error fault :=
    refused_scan (fun _ => .done) refused fun _ => rfl
  rw [Scan.byte_mendable_iff failed]
  exact (mendable_iff_scan valid (fun _ => rfl) fun _ => rfl).symm

/-- The refusal of given bytes lacks data where too few lie ahead, and is mendable where those are
the first of them. -/
theorem exactly_refused {expected : List UInt8} {fault : Fault} (valid : session.tape.Valid)
    (refused : ((Action.exactly expected).perform session).answer = .fault fault) :
    (fault.wantsMore = true ↔ session.tape.available < expected.length) ∧
      (session.Mendable (.exactly expected) ↔
        fault.wantsMore = true ∧ session.tape.ahead <+: expected) := by
  have failed : (Scan.exactly expected session.tape.ahead).result = .error fault :=
    refused_scan (fun _ => .done) refused fun _ => rfl
  rw [← Tape.length_ahead valid, ← Scan.exactly_mendable_iff failed]
  exact ⟨Scan.exactly_wantsMore_iff failed, mendable_iff_scan valid (fun _ => rfl) fun _ => rfl⟩

/-- The refusal of a scan for a stop byte never lacks data, and is mendable where there is one. -/
theorem upTo_refused {stops : StopSet} {rule : CaseRule} {fault : Fault}
    (valid : session.tape.Valid)
    (refused : ((Action.upTo stops rule).perform session).answer = .fault fault) :
    fault.wantsMore = false ∧ (session.Mendable (.upTo stops rule) ↔ stops.members ≠ []) := by
  have failed : (Scan.upTo stops rule session.tape.ahead).result = .error fault :=
    refused_scan (fun _ => .done) refused fun _ => rfl
  rw [← Scan.upTo_mendable_iff]
  exact ⟨Scan.upTo_wantsMore failed, mendable_iff_scan valid (fun _ => rfl) fun _ => rfl⟩

/-- The refusal of a numeral never lacks data, and is mendable where a literal is cut short. -/
theorem numeral_refused {fault : Fault} (valid : session.tape.Valid)
    (refused : (Action.numeral.perform session).answer = .fault fault) :
    fault.wantsMore = false ∧
      (session.Mendable .numeral ↔ Stub (session.tape.ahead.dropWhile Byte.isBlank)) := by
  have failed : (scan session.tape.ahead).result = .error fault :=
    refused_scan .number refused fun _ => rfl
  rw [← scan_mendable_iff failed]
  exact ⟨scan_wantsMore failed, mendable_iff_scan valid (fun _ => rfl) fun _ => rfl⟩

/-- **What a fault lacks and what more bytes mend.** For a number of bytes and for a single byte a
fault lacks data exactly where more bytes in the same place mend it. Given bytes lack data where
fewer lie ahead, and are mended where those are also the first of them. A scan for a stop byte and a
numeral never lack data: they are mended where there is a stop byte at all, and where a literal is
cut short after the blank bytes. -/
theorem refused_mendable (valid : session.tape.Valid) :
    (∀ count fault, ((Action.advance count).perform session).answer = .fault fault →
        (fault.wantsMore = true ↔ session.Mendable (.advance count))) ∧
      (∀ expected rule fault,
        ((Action.byte expected rule).perform session).answer = .fault fault →
          (fault.wantsMore = true ↔ session.Mendable (.byte expected rule))) ∧
      (∀ expected fault, ((Action.exactly expected).perform session).answer = .fault fault →
        (fault.wantsMore = true ↔ session.tape.available < expected.length) ∧
          (session.Mendable (.exactly expected) ↔
            fault.wantsMore = true ∧ session.tape.ahead <+: expected)) ∧
      (∀ stops rule fault, ((Action.upTo stops rule).perform session).answer = .fault fault →
        fault.wantsMore = false ∧
          (session.Mendable (.upTo stops rule) ↔ stops.members ≠ [])) ∧
      ∀ fault, (Action.numeral.perform session).answer = .fault fault →
        fault.wantsMore = false ∧
          (session.Mendable .numeral ↔
            Stub (session.tape.ahead.dropWhile Byte.isBlank)) := by
  refine ⟨?_, ?_, ?_, ?_, ?_⟩
  · intro count fault refused
    have ⟨lacks, mendable⟩ := advance_mendable valid refused
    exact ⟨fun _ => mendable, fun _ => lacks⟩
  · intro expected rule fault refused
    exact byte_refused valid refused
  · intro expected fault refused
    exact exactly_refused valid refused
  · intro stops rule fault refused
    exact upTo_refused valid refused
  · intro fault refused
    exact numeral_refused valid refused

/-- The first letters of a word lack the others, and a sign and a point wait for a digit without
lacking any. -/
theorem refused_mendable_begun :
    let begun := ofBuffer (.lent (.ofBytes (Byte.ofAscii "GE")))
    let signed := ofBuffer (.lent (.ofBytes (Byte.ofAscii " -.")))
    (Fault.tooFew 3 2).wantsMore = true ∧ begun.Mendable (.exactly (Byte.ofAscii "GET")) ∧
      Fault.mismatch.wantsMore = false ∧ signed.Mendable .numeral := by
  intro begun signed
  have ⟨_, _, given, _, _⟩ :=
    refused_mendable (show begun.tape.Valid from Tape.ofBytes_valid _)
  have ⟨_, _, _, _, number⟩ :=
    refused_mendable (show signed.tape.Valid from Tape.ofBytes_valid _)
  have ⟨few, mended⟩ := given (Byte.ofAscii "GET") (.tooFew 3 2) (by decide +kernel)
  have ⟨lacks_none, cut⟩ := number .mismatch (by decide +kernel)
  have lacks : (Fault.tooFew 3 2).wantsMore = true := few.mpr (by decide +kernel)
  have begins : begun.tape.ahead <+: Byte.ofAscii "GET" := by decide +kernel
  exact ⟨lacks, mended.mpr ⟨lacks, begins⟩, lacks_none, cut.mpr (.signed .minus .point)⟩

/-- Two bytes lack the third of a word whose second they are not, in vain; and of bytes without a
stop byte, and of a sign alone, nothing is lacking that more bytes would mend. -/
theorem wantsMore_misjudges :
    let other := ofBuffer (.lent (.ofBytes (Byte.ofAscii "GX")))
    let alone := ofBuffer (.lent (.ofBytes (Byte.ofAscii "-")))
    let word := Action.exactly (Byte.ofAscii "GET")
    let stop := Action.upTo (.byte Byte.cr) .exact
    other.Reached ∧ alone.Reached ∧
      ((word.perform other).answer = .fault (.tooFew 3 2) ∧
        ¬((Fault.tooFew 3 2).wantsMore = true ↔ other.Mendable word)) ∧
      ((stop.perform alone).answer = .fault .mismatch ∧
        ¬(Fault.mismatch.wantsMore = true ↔ alone.Mendable stop)) ∧
      ((Action.numeral.perform alone).answer = .fault .mismatch ∧
        ¬(Fault.mismatch.wantsMore = true ↔ alone.Mendable .numeral)) := by
  intro other alone word stop
  have other_valid : other.tape.Valid := Tape.ofBytes_valid _
  have alone_valid : alone.tape.Valid := Tape.ofBytes_valid _
  have other_reached : other.Reached := ⟨_, [], .lent _ (by decide), trivial, rfl⟩
  have alone_reached : alone.Reached := ⟨_, [], .lent _ (by decide), trivial, rfl⟩
  have word_refused : (word.perform other).answer = .fault (.tooFew 3 2) := by decide +kernel
  have stop_refused : (stop.perform alone).answer = .fault .mismatch := by decide +kernel
  have number_refused : (Action.numeral.perform alone).answer = .fault .mismatch := by
    decide +kernel
  have differs : ¬other.tape.ahead <+: Byte.ofAscii "GET" := by decide +kernel
  have ⟨_, word_mended⟩ := exactly_refused other_valid word_refused
  have ⟨_, stop_mended⟩ := upTo_refused alone_valid stop_refused
  have ⟨_, number_mended⟩ := numeral_refused alone_valid number_refused
  refine ⟨other_reached, alone_reached, ⟨word_refused, ?_⟩, ⟨stop_refused, ?_⟩,
    ⟨number_refused, ?_⟩⟩
  · intro claimed
    exact differs (word_mended.mp (claimed.mp rfl)).2
  · intro claimed
    cases claimed.mpr (stop_mended.mpr (List.cons_ne_nil _ _))
  · intro claimed
    cases claimed.mpr (number_mended.mpr (.signed .minus .nothing))

end Session

end WireScan
