import WireScan.Proofs.Encoding
import WireScan.Proofs.Stability

/-!
# The text of a head

The bytes of a head are given by a grammar (`Head.Spells`) that says nothing of reading: each field
is its UTF-8 encoding, and any number of spaces stands before a value. Which heads have bytes of
their own is `Head.Proper`: no field holds the byte that closes it, and no name can be taken for the
end of the head nor a space for a part of a value. `Scan.Gives` says what a scan comes to and leaves;
each part of a head is given where its bytes lie ahead and nowhere else (`Head.scan_gives_iff`), so a
head is read from exactly the bytes that spell it (`Tape.readHead_exact`).
-/
namespace WireScan

namespace Scan

variable {α β : Type}

/-- A scan comes to a value and leaves bytes ahead. -/
def Gives (scan : Scan α) (input : List UInt8) (value : α) (rest : List UInt8) : Prop :=
  ∃ notes, scan input = ⟨.ok value, rest, notes⟩

/-- A sequence gives what its second scan gives for the value and the bytes of its first. -/
theorem bind_gives_iff {first : Scan α} {second : α → Scan β} {input rest : List UInt8}
    {value : β} :
    (first >>= second).Gives input value rest ↔
      ∃ passed middle, first.Gives input passed middle ∧ (second passed).Gives middle value rest := by
  match read : first input with
  | ⟨.error fault, left, notes⟩ =>
    constructor
    · rintro ⟨_, came⟩
      rw [bind_error read] at came
      cases came
    · rintro ⟨_, _, ⟨_, gave⟩, _⟩
      cases read.symm.trans gave
  | ⟨.ok passed, left, notes⟩ =>
    constructor
    · rintro ⟨_, came⟩
      rw [bind_ok read] at came
      refine ⟨passed, left, ⟨notes, read⟩, (second passed left).notes, ?_⟩
      cases later : second passed left
      rw [later] at came
      cases came
      rfl
    · rintro ⟨_, _, ⟨_, gave⟩, noted, later⟩
      cases read.symm.trans gave
      exact ⟨notes ++ noted, by rw [bind_ok read, later]⟩

/-- Reading nothing gives the value that was given. -/
theorem pure_gives_iff {given value : α} {input rest : List UInt8} :
    (Pure.pure given : Scan α).Gives input value rest ↔ value = given ∧ input = rest := by
  constructor
  · rintro ⟨_, came⟩
    cases came
    exact ⟨rfl, rfl⟩
  · rintro ⟨rfl, rfl⟩
    exact ⟨[], rfl⟩

/-- Failing gives nothing. -/
theorem not_fail_gives {fault : Fault} {value : α} {input rest : List UInt8} :
    ¬(fail fault : Scan α).Gives input value rest := by
  rintro ⟨_, came⟩
  cases came

/-- One byte is given where it is the next. -/
theorem byte_gives_iff {expected : UInt8} {input rest : List UInt8} {value : Unit} :
    (byte expected .exact).Gives input value rest ↔ input = expected :: rest := by
  constructor
  · rintro ⟨_, came⟩
    cases input with
    | nil => cases came
    | cons next tail =>
      rw [byte] at came
      split at came
      · rename_i same
        cases came
        rw [CaseRule.equal_iff] at same
        rw [show expected = next from same]
      · cases came
  · rintro rfl
    exact ⟨[], by rw [byte, if_pos (CaseRule.equal_iff.mpr rfl)]⟩

/-- Given bytes are given where they lie ahead. -/
theorem exactly_gives_iff {expected input rest : List UInt8} {value : Unit} :
    (exactly expected).Gives input value rest ↔ input = expected ++ rest := by
  constructor
  · rintro ⟨_, came⟩
    unfold exactly at came
    split at came
    · rename_i ahead
      cases came
      obtain ⟨tail, rfl⟩ := List.isPrefixOf_iff_prefix.mp ahead
      rw [List.drop_left]
    · split at came <;> cases came
  · rintro rfl
    exact ⟨[], exactly_append expected rest⟩

/-- The bytes before the first closing byte are given. -/
theorem upTo_gives_iff {close : UInt8} {input bytes rest : List UInt8} :
    (upTo (.byte close) .exact).Gives input bytes rest ↔
      close ∉ bytes ∧ ∃ tail, rest = close :: tail ∧ input = bytes ++ close :: tail := by
  constructor
  · rintro ⟨notes, came⟩
    obtain ⟨tail, rfl⟩ := upTo_byte_rest came
    unfold upTo at came
    split at came
    · cases came
    · rw [Outcome.mk.injEq, Except.ok.injEq] at came
      obtain ⟨rfl, left, -⟩ := came
      refine ⟨fun among => ?_, tail, rfl, ?_⟩
      · have passed := List.all_eq_true.mp List.all_takeWhile close among
        simp [StopSet.contains, CaseRule.equal] at passed
      · rw [← left, List.takeWhile_append_dropWhile]
  · rintro ⟨absent, tail, rfl, rfl⟩
    induction bytes with
    | nil => exact ⟨[], upTo_byte_self close tail⟩
    | cons first bytes ih =>
      rw [List.mem_cons, not_or] at absent
      obtain ⟨notes, later⟩ := ih absent.2
      refine ⟨notes, ?_⟩
      rw [List.cons_append, upTo_byte_cons (Ne.symm absent.1), later]

/-- Bytes of a kind are passed over, up to the first that is not of it. -/
theorem skipWhile_gives_iff {test : UInt8 → Bool} {input rest : List UInt8} {value : Unit} :
    (skipWhile test).Gives input value rest ↔
      ∃ passed, (∀ byte ∈ passed, test byte = true) ∧ (∀ byte ∈ rest.head?, test byte = false) ∧
        input = passed ++ rest := by
  constructor
  · rintro ⟨_, came⟩
    cases came
    refine ⟨input.takeWhile test, fun byte among => ?_, fun byte first => ?_,
      List.takeWhile_append_dropWhile.symm⟩
    · exact List.all_eq_true.mp List.all_takeWhile byte among
    · have stopped := List.head?_dropWhile_not test input
      rw [first] at stopped
      simpa using stopped
  · rintro ⟨passed, all, stops, rfl⟩
    refine ⟨[], ?_⟩
    rw [skipWhile, List.dropWhile_append_of_pos all]
    cases rest with
    | nil => rfl
    | cons byte rest => rw [List.dropWhile_cons_of_neg (by rw [stops byte rfl]; nofun)]

end Scan

/-- A list without a byte begins the bytes up to that byte or not at all. -/
theorem prefix_append_cons_iff {pattern bytes rest : List UInt8} {separator : UInt8}
    (absent : separator ∉ pattern) :
    pattern <+: bytes ++ separator :: rest ↔ pattern <+: bytes := by
  induction pattern generalizing bytes with
  | nil => simp
  | cons first pattern ih =>
    rw [List.mem_cons, not_or] at absent
    cases bytes with
    | nil => simp [List.cons_prefix_cons, Ne.symm absent.1]
    | cons next bytes => simp only [List.cons_append, List.cons_prefix_cons, ih absent.2]

namespace Head

open Utf8 (encode)

/-! ## The grammar -/

/-- The byte between the name and the value of a header. -/
def colon : UInt8 := ':'.toUInt8

/-- A header that can be spelled: the name ends at the first colon and cannot be taken for the end of
the head, and the value ends at the first carriage return and begins where the spaces end. -/
structure ProperHeader (header : String × String) : Prop where
  /-- The name holds no colon. -/
  name_closed : colon ∉ encode header.1
  /-- The name does not begin with a line end. -/
  name_begins : ¬Byte.lineEnd <+: encode header.1
  /-- The value holds no carriage return. -/
  value_closed : Byte.cr ∉ encode header.2
  /-- The value does not begin with a space. -/
  value_begins : (encode header.2).head? ≠ some Byte.space

/-- A head that can be spelled. -/
structure Proper (head : Head) : Prop where
  /-- There is a method. -/
  method_nonempty : head.method ≠ ""
  /-- The method holds no space. -/
  method_closed : Byte.space ∉ encode head.method
  /-- The target holds no space. -/
  target_closed : Byte.space ∉ encode head.target
  /-- The version holds no carriage return. -/
  version_closed : Byte.cr ∉ encode head.version
  /-- The headers can be spelled. -/
  headers : ∀ header ∈ head.headers, ProperHeader header

/-- The bytes of a request line. -/
def spellLine (head : Head) : List UInt8 :=
  encode head.method ++ Byte.space ::
    (encode head.target ++ Byte.space ::
      (protocol ++ (encode head.version ++ Byte.lineEnd)))

/-- The bytes of a header line with a number of spaces before the value. -/
def spellHeader (spaces : Nat) (header : String × String) : List UInt8 :=
  encode header.1 ++ colon ::
    (List.replicate spaces Byte.space ++ (encode header.2 ++ Byte.lineEnd))

/-- The bytes of header lines and of the empty line after them. -/
inductive SpellsHeaders : List (String × String) → List UInt8 → Prop
  /-- The empty line. -/
  | done : SpellsHeaders [] Byte.lineEnd
  /-- A header line, with any number of spaces. -/
  | line {header : String × String} {headers : List (String × String)} {text : List UInt8}
    (spaces : Nat) (later : SpellsHeaders headers text) :
    SpellsHeaders (header :: headers) (spellHeader spaces header ++ text)

/-- Bytes spell a head. -/
def Spells (head : Head) (text : List UInt8) : Prop :=
  ∃ lines, SpellsHeaders head.headers lines ∧ text = head.spellLine ++ lines

/-- A head as bytes, with one space before each value. -/
def print (head : Head) : List UInt8 :=
  head.spellLine ++ (head.headers.flatMap (spellHeader 1) ++ Byte.lineEnd)

/-- What is printed spells the head. -/
theorem print_spells (head : Head) : head.Spells head.print := by
  refine ⟨_, ?_, rfl⟩
  induction head.headers with
  | nil => exact .done
  | cons header headers ih =>
    rw [List.flatMap_cons, List.append_assoc]
    exact .line 1 ih

/-! ## Scans of the parts -/

variable {close : UInt8} {text : String} {input rest : List UInt8}

/-- A field is the bytes of its text up to the closing byte. -/
theorem field_gives_iff :
    (field close).Gives input text rest ↔
      close ∉ encode text ∧ ∃ tail, rest = close :: tail ∧ input = encode text ++ close :: tail := by
  match found : Scan.upTo (.byte close) .exact input with
  | ⟨.error fault, left, notes⟩ =>
    constructor
    · rintro ⟨_, came⟩
      rw [field, found] at came
      cases came
    · intro spelled
      obtain ⟨_, gave⟩ := Scan.upTo_gives_iff.mpr spelled
      cases found.symm.trans gave
  | ⟨.ok bytes, left, notes⟩ =>
    have read : field close input = ⟨textOf bytes, left, notes⟩ := by rw [field, found]
    constructor
    · rintro ⟨_, came⟩
      rw [read, Outcome.mk.injEq, textOf_eq_ok_iff] at came
      obtain ⟨rfl, rfl, -⟩ := came
      exact Scan.upTo_gives_iff.mp ⟨notes, found⟩
    · intro spelled
      obtain ⟨_, gave⟩ := Scan.upTo_gives_iff.mpr spelled
      cases found.symm.trans gave
      exact ⟨notes, by rw [read, textOf_eq_ok_iff.mpr rfl]⟩

/-- A closed field is the bytes of its text and the closing byte. -/
theorem closedField_gives_iff :
    (closedField close).Gives input text rest ↔
      close ∉ encode text ∧ input = encode text ++ close :: rest := by
  unfold closedField
  simp only [Scan.bind_gives_iff, field_gives_iff, Scan.byte_gives_iff, Scan.pure_gives_iff]
  constructor
  · rintro ⟨_, _, ⟨absent, tail, rfl, rfl⟩, _, _, same, rfl, rfl⟩
    cases same
    exact ⟨absent, rfl⟩
  · rintro ⟨absent, rfl⟩
    exact ⟨text, _, ⟨absent, rest, rfl, rfl⟩, (), rest, rfl, rfl, rfl⟩

/-- A last field is the bytes of its text and the line end. -/
theorem lastField_gives_iff :
    lastField.Gives input text rest ↔
      Byte.cr ∉ encode text ∧ input = encode text ++ (Byte.lineEnd ++ rest) := by
  unfold lastField
  simp only [Scan.bind_gives_iff, field_gives_iff, Scan.exactly_gives_iff, Scan.pure_gives_iff]
  constructor
  · rintro ⟨_, _, ⟨absent, tail, rfl, rfl⟩, _, _, same, rfl, rfl⟩
    exact ⟨absent, by rw [same]⟩
  · rintro ⟨absent, rfl⟩
    exact ⟨text, _, ⟨absent, Byte.lf :: rest, rfl, rfl⟩, (), rest, rfl, rfl, rfl⟩

/-- A method is the bytes of a text that is not empty. -/
theorem methodField_gives_iff :
    methodField.Gives input text rest ↔
      text ≠ "" ∧ Byte.space ∉ encode text ∧
        ∃ tail, rest = Byte.space :: tail ∧ input = encode text ++ Byte.space :: tail := by
  unfold methodField
  simp only [Scan.bind_gives_iff, field_gives_iff]
  constructor
  · rintro ⟨method, _, ⟨absent, tail, rfl, rfl⟩, gave⟩
    by_cases empty : method.isEmpty
    · rw [if_pos empty] at gave
      exact absurd gave Scan.not_fail_gives
    · rw [if_neg empty] at gave
      obtain ⟨rfl, rfl⟩ := Scan.pure_gives_iff.mp gave
      exact ⟨fun none => empty (String.isEmpty_iff.mpr none), absent, tail, rfl, rfl⟩
  · rintro ⟨nonempty, absent, tail, rfl, rfl⟩
    refine ⟨text, _, ⟨absent, tail, rfl, rfl⟩, ?_⟩
    rw [if_neg fun empty => nonempty (String.isEmpty_iff.mp empty)]
    exact Scan.pure_gives_iff.mpr ⟨rfl, rfl⟩

/-- A request line is the bytes of its fields. -/
theorem requestLine_gives_iff {line : Head} :
    requestLine.Gives input line rest ↔
      line.Proper ∧ line.headers = [] ∧ input = line.spellLine ++ rest := by
  unfold requestLine
  simp only [Scan.bind_gives_iff, methodField_gives_iff, Scan.byte_gives_iff,
    closedField_gives_iff, Scan.exactly_gives_iff, lastField_gives_iff, Scan.pure_gives_iff]
  constructor
  · rintro ⟨method, _, ⟨nonempty, method_closed, tail, rfl, rfl⟩, _, _, same, target, _,
      ⟨target_closed, rfl⟩, _, _, rfl, version, _, ⟨version_closed, rfl⟩, rfl, rfl⟩
    cases same
    refine ⟨⟨nonempty, method_closed, target_closed, version_closed, nofun⟩, rfl, ?_⟩
    simp only [spellLine, List.append_assoc, List.cons_append]
  · obtain ⟨method, target, version, headers⟩ := line
    rintro ⟨proper, rfl, rfl⟩
    simp only [spellLine, List.append_assoc, List.cons_append]
    exact ⟨method, _, ⟨proper.method_nonempty, proper.method_closed, _, rfl, rfl⟩, (), _, rfl,
      target, _, ⟨proper.target_closed, rfl⟩, (), _, rfl, version, _,
      ⟨proper.version_closed, rfl⟩, rfl, rfl⟩

/-- What is left after spaces were passed over begins with no space. -/
theorem spaces_gives_iff {value : Unit} :
    (Scan.skipWhile (· == Byte.space)).Gives input value rest ↔
      rest.head? ≠ some Byte.space ∧
        ∃ spaces, input = List.replicate spaces Byte.space ++ rest := by
  rw [Scan.skipWhile_gives_iff]
  simp only [beq_iff_eq, beq_eq_false_iff_ne]
  constructor
  · rintro ⟨passed, all, stops, rfl⟩
    refine ⟨fun first => stops _ first rfl, passed.length, ?_⟩
    rw [← List.eq_replicate_iff.mpr ⟨rfl, all⟩]
  · rintro ⟨stops, spaces, rfl⟩
    refine ⟨_, fun byte among => (List.mem_replicate.mp among).2, fun byte first same => ?_, rfl⟩
    exact stops (same ▸ first)

/-- A header line is the bytes of a name without a colon and of a value. -/
theorem headerLine_gives_iff {header : String × String} :
    headerLine.Gives input header rest ↔
      colon ∉ encode header.1 ∧ Byte.cr ∉ encode header.2 ∧
        (encode header.2).head? ≠ some Byte.space ∧
        ∃ spaces, input = spellHeader spaces header ++ rest := by
  have first : (encode header.2 ++ (Byte.lineEnd ++ rest)).head? ≠ some Byte.space ↔
      (encode header.2).head? ≠ some Byte.space := by
    cases encode header.2 with
    | nil => exact iff_of_true nofun nofun
    | cons byte bytes => exact Iff.rfl
  unfold headerLine
  simp only [Scan.bind_gives_iff, closedField_gives_iff, spaces_gives_iff, lastField_gives_iff,
    Scan.pure_gives_iff]
  obtain ⟨name, value⟩ := header
  constructor
  · rintro ⟨_, _, ⟨name_closed, rfl⟩, _, _, ⟨begins, spaces, rfl⟩, _, _, ⟨value_closed, rfl⟩, same,
      rfl⟩
    cases same
    refine ⟨name_closed, value_closed, first.mp begins, spaces, ?_⟩
    simp only [spellHeader, colon, List.append_assoc, List.cons_append]
  · rintro ⟨name_closed, value_closed, begins, spaces, rfl⟩
    simp only [spellHeader, List.append_assoc, List.cons_append]
    exact ⟨name, _, ⟨name_closed, rfl⟩, (), _, ⟨first.mpr begins, spaces, rfl⟩, value, _,
      ⟨value_closed, rfl⟩, rfl, rfl⟩

/-- Two bytes or more begin with the line end when these two are it. -/
theorem lineEnd_prefix_iff {first second : UInt8} :
    Byte.lineEnd <+: first :: second :: rest ↔ first = Byte.cr ∧ second = Byte.lf := by
  rw [Byte.lineEnd, List.cons_prefix_cons, List.cons_prefix_cons]
  constructor
  · rintro ⟨rfl, rfl, -⟩
    exact ⟨rfl, rfl⟩
  · rintro ⟨rfl, rfl⟩
    exact ⟨rfl, rfl, List.nil_prefix⟩

/-- The empty line ends the head. -/
theorem nextHeader_gives_none_iff :
    Scan.Gives nextHeader input none rest ↔ input = Byte.lineEnd ++ rest := by
  constructor
  · rintro ⟨_, came⟩
    unfold nextHeader at came
    split at came
    · split at came
      · rename_i first second tail ends
        cases came
        rw [ends.1, ends.2]
        rfl
      · obtain ⟨_, _, _, same⟩ := Scan.bind_gives_iff.mp ⟨_, came⟩
        cases (Scan.pure_gives_iff.mp same).1
    · cases came
  · rintro rfl
    exact ⟨[], rfl⟩

/-- A header line is passed on as one. -/
theorem some_headerLine_gives_iff {header : String × String} :
    (some <$> headerLine : Scan _).Gives input (some header) rest ↔
      headerLine.Gives input header rest := by
  constructor
  · intro gave
    obtain ⟨found, _, read, passed⟩ := Scan.bind_gives_iff.mp gave
    obtain ⟨same, rfl⟩ := Scan.pure_gives_iff.mp passed
    rw [Option.some.inj same]
    exact read
  · intro read
    exact Scan.bind_gives_iff.mpr ⟨header, rest, read, Scan.pure_gives_iff.mpr ⟨rfl, rfl⟩⟩

/-- The bytes of a header line begin with a line end when its name does. -/
theorem lineEnd_prefix_spellHeader_iff {spaces : Nat} {header : String × String} :
    Byte.lineEnd <+: spellHeader spaces header ++ rest ↔ Byte.lineEnd <+: encode header.1 := by
  rw [spellHeader, List.append_assoc, List.cons_append]
  exact prefix_append_cons_iff (by decide)

/-- Any other line is a header line, whose name does not begin with a line end. -/
theorem nextHeader_gives_some_iff {header : String × String} :
    Scan.Gives nextHeader input (some header) rest ↔
      ProperHeader header ∧ ∃ spaces, input = spellHeader spaces header ++ rest := by
  constructor
  · rintro ⟨notes, came⟩
    unfold nextHeader at came
    split at came
    · split at came
      · cases came
      · rename_i other
        obtain ⟨name_closed, value_closed, value_begins, spaces, same⟩ :=
          headerLine_gives_iff.mp (some_headerLine_gives_iff.mp ⟨notes, came⟩)
        rw [← lineEnd_prefix_iff, same, lineEnd_prefix_spellHeader_iff] at other
        exact ⟨⟨name_closed, other, value_closed, value_begins⟩, spaces, same⟩
    · cases came
  · rintro ⟨proper, spaces, same⟩
    have other : ¬Byte.lineEnd <+: input := by
      rw [same, lineEnd_prefix_spellHeader_iff]
      exact proper.name_begins
    obtain ⟨notes, read⟩ := some_headerLine_gives_iff.mpr (headerLine_gives_iff.mpr
      ⟨proper.name_closed, proper.value_closed, proper.value_begins, spaces, same⟩)
    refine ⟨notes, ?_⟩
    match input with
    | first :: second :: tail =>
      rw [nextHeader, if_neg (lineEnd_prefix_iff.not.mp other), read]
    | [] | [_] =>
      have long := congrArg List.length same
      simp only [spellHeader, Byte.lineEnd, List.length_append, List.length_cons,
        List.length_nil] at long
      omega

/-- Header lines are the bytes of headers with the empty line after them. -/
theorem headerLines_gives_iff {headers : List (String × String)} :
    Scan.Gives headerLines input headers rest ↔
      (∀ header ∈ headers, ProperHeader header) ∧
        ∃ text, SpellsHeaders headers text ∧ input = text ++ rest := by
  constructor
  · rintro ⟨notes, came⟩
    fun_induction headerLines input generalizing headers notes with
    | case1 => cases came
    | case2 input last noted read =>
      cases came
      exact ⟨List.forall_mem_nil _, _, .done, nextHeader_gives_none_iff.mp ⟨_, read⟩⟩
    | case3 input header left noted read _ later =>
      rename_i ih
      cases others : later with
      | mk result last after =>
        cases result with
        | error fault =>
          rw [others] at came
          cases came
        | ok found =>
          rw [others] at came
          cases came
          obtain ⟨proper, text, spelled, rfl⟩ := ih after others
          obtain ⟨first, spaces, rfl⟩ := nextHeader_gives_some_iff.mp ⟨noted, read⟩
          refine ⟨List.forall_mem_cons.mpr ⟨first, proper⟩, _, .line spaces spelled, ?_⟩
          rw [List.append_assoc]
  · rintro ⟨proper, text, spelled, rfl⟩
    induction spelled with
    | done =>
      obtain ⟨notes, read⟩ := nextHeader_gives_none_iff.mpr (rfl : _ = Byte.lineEnd ++ rest)
      exact ⟨notes, by rw [headerLines_eq, read]⟩
    | @line header headers text spaces _ ih =>
      rw [List.forall_mem_cons] at proper
      obtain ⟨noted, others⟩ := ih proper.2
      obtain ⟨notes, read⟩ := nextHeader_gives_some_iff.mpr
        ⟨proper.1, spaces, (List.append_assoc _ text rest)⟩
      refine ⟨notes ++ noted, ?_⟩
      rw [headerLines_eq, read]
      simp only [others]
      rfl

/-- A head is the bytes that spell it. -/
theorem scan_gives_iff {head : Head} :
    scan.Gives input head rest ↔
      head.Proper ∧ ∃ text, head.Spells text ∧ input = text ++ rest := by
  unfold scan
  constructor
  · intro gave
    obtain ⟨line, _, first, later⟩ := Scan.bind_gives_iff.mp gave
    obtain ⟨begins, -, rfl⟩ := requestLine_gives_iff.mp first
    obtain ⟨headers, _, others, passed⟩ := Scan.bind_gives_iff.mp later
    obtain ⟨proper, lines, spelled, rfl⟩ := headerLines_gives_iff.mp others
    obtain ⟨rfl, rfl⟩ := Scan.pure_gives_iff.mp passed
    refine ⟨{ begins with headers := proper }, _, ⟨lines, spelled, rfl⟩, ?_⟩
    simp only [spellLine, List.append_assoc, List.cons_append]
  · rintro ⟨proper, _, ⟨lines, spelled, rfl⟩, rfl⟩
    have first : requestLine.Gives (head.spellLine ++ lines ++ rest)
        { head with headers := [] } (lines ++ rest) :=
      requestLine_gives_iff.mpr
        ⟨{ proper with headers := nofun }, rfl, List.append_assoc _ lines rest⟩
    have others : Scan.Gives headerLines (lines ++ rest) head.headers rest :=
      headerLines_gives_iff.mpr ⟨proper.headers, lines, spelled, rfl⟩
    exact Scan.bind_gives_iff.mpr ⟨_, _, first,
      Scan.bind_gives_iff.mpr ⟨_, _, others, Scan.pure_gives_iff.mpr ⟨rfl, rfl⟩⟩⟩

/-- The bytes of a head spell no other. -/
theorem Spells.unique {head other : Head} {text : List UInt8} (proper : head.Proper)
    (other_proper : other.Proper) (spelled : head.Spells text) (other_spelled : other.Spells text) :
    head = other := by
  have ends : text = text ++ [] := (List.append_nil text).symm
  obtain ⟨_, read⟩ := scan_gives_iff.mpr ⟨proper, text, spelled, ends⟩
  obtain ⟨_, again⟩ := scan_gives_iff.mpr ⟨other_proper, text, other_spelled, ends⟩
  cases read.symm.trans again
  rfl

end Head

namespace Tape

/-- On a sound tape a head is read where bytes that spell it lie ahead, and with as many bytes. -/
theorem Sound.readsHead_iff_spells {tape : Tape} (sound : tape.Sound) {head : Head} {count : Nat} :
    tape.ReadsHead head count ↔
      head.Proper ∧ ∃ text rest, head.Spells text ∧ text.length = count ∧
        tape.ahead = text ++ rest := by
  rw [sound.readsHead_iff]
  constructor
  · rintro ⟨rest, notes, read, taken⟩
    obtain ⟨proper, text, spelled, ahead⟩ := Head.scan_gives_iff.mp ⟨notes, read⟩
    refine ⟨proper, text, rest, spelled, ?_, ahead⟩
    rw [← taken, ahead, List.length_append, Nat.add_sub_cancel]
  · rintro ⟨proper, text, rest, spelled, rfl, ahead⟩
    obtain ⟨notes, read⟩ := Head.scan_gives_iff.mpr ⟨proper, text, spelled, ahead⟩
    refine ⟨rest, notes, read, ?_⟩
    rw [ahead, List.length_append, Nat.add_sub_cancel]

/-- A head is read where the scan of the bytes ahead comes to it. -/
theorem Sound.readsHead_of_scan {tape : Tape} (sound : tape.Sound) {head : Head} {count : Nat}
    (result : (Head.scan tape.ahead).result = .ok head)
    (taken : tape.ahead.length - (Head.scan tape.ahead).rest.length = count) :
    tape.ReadsHead head count :=
  sound.readsHead_iff.mpr ⟨_, (Head.scan tape.ahead).notes, by rw [← result], taken⟩

/-- After a head was read the bytes after its text lie ahead. -/
theorem ReadsHead.ahead_eq {tape : Tape} (valid : tape.Valid) {head : Head}
    {text rest : List UInt8} (reads : tape.ReadsHead head text.length)
    (begins : tape.ahead = text ++ rest) : tape.readHead.tape.ahead = rest := by
  have inside : text.length ≤ tape.available := by
    rw [← length_ahead valid, begins, List.length_append]
    exact Nat.le_add_right _ _
  rw [reads.reached, ahead_further valid inside, begins, List.drop_left]

/-- **Heads are read from exactly the bytes that spell them.** On every sound tape a head is read
with a number of bytes exactly when it is proper and that many bytes ahead spell it; so a proper
head that was printed is read back, with whatever follows it left ahead, and no bytes spell two
proper heads. -/
theorem readHead_exact {tape : Tape} (sound : tape.Sound) :
    (∀ head count, tape.ReadsHead head count ↔
        head.Proper ∧ ∃ text rest, head.Spells text ∧ text.length = count ∧
          tape.ahead = text ++ rest) ∧
      (∀ head rest, head.Proper → tape.ahead = head.print ++ rest →
        tape.ReadsHead head head.print.length ∧ tape.readHead.tape.ahead = rest) ∧
      ∀ (head other : Head) (text : List UInt8), head.Proper → other.Proper →
        head.Spells text → other.Spells text → head = other := by
  refine ⟨fun _ _ => sound.readsHead_iff_spells, ?_, fun _ _ _ => Head.Spells.unique⟩
  intro head rest proper begins
  have reads : tape.ReadsHead head head.print.length :=
    sound.readsHead_iff_spells.mpr ⟨proper, _, rest, head.print_spells, rfl, begins⟩
  exact ⟨reads, reads.ahead_eq sound.valid begins⟩

/-- A head with an empty target, an empty version and a name that begins with a carriage return is
read from bytes with no space before one value and two before the other. -/
theorem readHead_exact_odd_fields :
    let tape := ofBytes (Utf8.encode "é  HTTP/\r\n\r:\r\nA:  ü\r\n\r\nrest")
    let head : Head := ⟨"é", "", "", [("\r", ""), ("A", "ü")]⟩
    tape.Sound ∧ head.Proper ∧ tape.ReadsHead head 25 := by
  intro tape head
  have sound : tape.Sound := ⟨ofBytes_valid _, by decide +kernel⟩
  have headers : ∀ header ∈ head.headers, Head.ProperHeader header := by
    intro header among
    rcases List.mem_cons.mp among with rfl | among
    · constructor <;> decide +kernel
    · rcases List.mem_singleton.mp among with rfl
      constructor <;> decide +kernel
  have proper : head.Proper := by
    refine ⟨?_, ?_, ?_, ?_, headers⟩ <;> decide +kernel
  have spelled : head.Spells (tape.ahead.take 25) :=
    ⟨_, .line 0 (.line 2 .done), by decide +kernel⟩
  have ahead : tape.ahead = tape.ahead.take 25 ++ tape.ahead.drop 25 := by simp
  refine ⟨sound, proper, ?_⟩
  exact ((readHead_exact sound).1 head 25).mpr ⟨proper, _, _, spelled, by decide +kernel, ahead⟩

end Tape

end WireScan
