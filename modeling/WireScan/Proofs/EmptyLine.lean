import WireScan.Proofs.Wire

/-!
# The empty line of a head

A head ends with an empty line, but not always with the first one. Method, target and names are read
up to the byte that closes them, across line ends, so an empty line inside one of them is passed over
and what follows it is read as a part of the head. Where none of them holds an empty line the head
ends with the first (`Tape.readHead_ends`). Version and values end at the first carriage
return and stay on their line.
-/
namespace WireScan

/-- The end of a line and the empty line after it. -/
def Byte.emptyLine : List UInt8 := lineEnd ++ lineEnd

/-! ## Occurrences -/

variable {pattern first second : List UInt8}

/-- Bytes occur on one side of a byte that they do not hold. -/
theorem infix_append_cons_iff {separator : UInt8} (absent : separator ∉ pattern) :
    pattern <:+: first ++ separator :: second ↔ pattern <:+: first ∨ pattern <:+: second := by
  induction first with
  | nil =>
    have begins : pattern <+: [] ++ separator :: second ↔ pattern <+: [] :=
      prefix_append_cons_iff absent
    rw [List.nil_append] at begins ⊢
    rw [List.infix_cons_iff, begins, List.prefix_nil, List.infix_nil]
  | cons byte first ih =>
    have begins : pattern <+: byte :: first ++ separator :: second ↔ pattern <+: byte :: first :=
      prefix_append_cons_iff absent
    rw [List.cons_append] at begins ⊢
    rw [List.infix_cons_iff, List.infix_cons_iff, begins, ih, or_assoc]

/-- An empty line does not occur before the first carriage return. -/
theorem emptyLine_infix_append_iff (absent : Byte.cr ∉ first) :
    Byte.emptyLine <:+: first ++ second ↔ Byte.emptyLine <:+: second := by
  induction first with
  | nil => rfl
  | cons next first ih =>
    rw [List.mem_cons, not_or] at absent
    have begins : ¬Byte.emptyLine <+: next :: (first ++ second) := fun begins =>
      absent.1 (List.cons_prefix_cons.mp begins).1
    rw [List.cons_append, List.infix_cons_iff, ih absent.2]
    exact or_iff_right begins

/-- After a line end an empty line occurs only in bytes that do not complete it. -/
theorem emptyLine_infix_lineEnd_iff (begins : ¬Byte.lineEnd <+: second) :
    Byte.emptyLine <:+: Byte.lineEnd ++ second ↔ Byte.emptyLine <:+: second := by
  have whole : ¬Byte.emptyLine <+: Byte.lineEnd ++ second := by
    rw [Byte.emptyLine, List.prefix_append_right_inj]
    exact begins
  have half : ¬Byte.emptyLine <+: Byte.lf :: second := fun half =>
    absurd (List.cons_prefix_cons.mp half).1 (by decide)
  have next : Byte.emptyLine <:+: Byte.lf :: second ↔ Byte.emptyLine <:+: second := by
    rw [List.infix_cons_iff]
    exact or_iff_right half
  rw [← next]
  exact List.infix_cons_iff.trans (or_iff_right whole)

/-- Bytes do not occur in a text when every occurrence goes on after it. -/
theorem not_infix_iff {last : UInt8} :
    ¬pattern <:+: first ↔
      ∀ earlier later, first ++ last :: second = earlier ++ (pattern ++ later) →
        first.length + 1 ≤ earlier.length + pattern.length := by
  constructor
  · intro absent earlier later occurs
    apply Classical.byContradiction
    intro inside
    have short : (earlier ++ pattern).length ≤ first.length := by
      rw [List.length_append]
      omega
    have begins : earlier ++ pattern <+: first ++ last :: second := by
      rw [occurs, ← List.append_assoc]
      exact List.prefix_append _ _
    have within := List.prefix_of_prefix_length_le begins (List.prefix_append _ _) short
    exact absent ((List.suffix_append earlier pattern).isInfix.trans within.isInfix)
  · rintro goes_on ⟨earlier, later, rfl⟩
    have past := goes_on earlier (later ++ last :: second) (by simp)
    rw [List.length_append, List.length_append] at past
    omega

namespace Head

open Utf8 (encode)

/-- No field of a head holds an empty line. -/
structure Compact (head : Head) : Prop where
  /-- The method holds none. -/
  method : ¬Byte.emptyLine <:+: encode head.method
  /-- The target holds none. -/
  target : ¬Byte.emptyLine <:+: encode head.target
  /-- The names hold none. -/
  names : ∀ header ∈ head.headers, ¬Byte.emptyLine <:+: encode header.1

/-- Header lines after a line end come to an end with an empty line, and it occurs before only in
names. By induction on the lines: a name holds no colon and so ends an occurrence, and the spaces
and the value after it hold no carriage return to begin one. -/
theorem SpellsHeaders.ends {headers : List (String × String)} {lines : List UInt8}
    (spelled : SpellsHeaders headers lines) (proper : ∀ header ∈ headers, ProperHeader header) :
    ∃ begun, Byte.lineEnd ++ lines = begun ++ Byte.emptyLine ∧
      (Byte.emptyLine <:+: begun ++ (Byte.lineEnd ++ [Byte.cr]) ↔
        ∃ header ∈ headers, Byte.emptyLine <:+: encode header.1) := by
  induction spelled with
  | done => exact ⟨[], rfl, by decide⟩
  | @line header headers lines spaces _ ih =>
    rw [List.forall_mem_cons] at proper
    obtain ⟨begun, ends, occurs⟩ := ih proper.2
    have spaced : Byte.cr ∉ List.replicate spaces Byte.space := fun among =>
      absurd (List.mem_replicate.mp among).2 (by decide)
    refine ⟨Byte.lineEnd ++ encode header.1 ++ colon ::
      (List.replicate spaces Byte.space ++ (encode header.2 ++ begun)), ?_, ?_⟩
    · simp only [spellHeader, List.append_assoc, List.cons_append, ends]
    · rw [List.append_assoc, List.cons_append, infix_append_cons_iff (by decide),
        emptyLine_infix_lineEnd_iff proper.1.name_begins, List.append_assoc,
        emptyLine_infix_append_iff spaced, List.append_assoc,
        emptyLine_infix_append_iff proper.1.value_closed, occurs]
      simp only [List.mem_cons, exists_eq_or_imp]

/-- The bytes of a head end with an empty line, and it occurs before only inside a field. -/
theorem Spells.ends {head : Head} {text : List UInt8} (proper : head.Proper)
    (spelled : head.Spells text) :
    ∃ begun, text = begun ++ Byte.emptyLine ∧
      (¬Byte.emptyLine <:+: begun ++ (Byte.lineEnd ++ [Byte.cr]) ↔ head.Compact) := by
  obtain ⟨lines, spelled, rfl⟩ := spelled
  obtain ⟨begun, ends, occurs⟩ := spelled.ends proper.headers
  refine ⟨encode head.method ++ Byte.space :: (encode head.target ++ Byte.space ::
    (protocol ++ (encode head.version ++ begun))), ?_, ?_⟩
  · simp only [spellLine, List.append_assoc, List.cons_append, ends]
  · rw [List.append_assoc, List.cons_append, infix_append_cons_iff (by decide), List.append_assoc,
      List.cons_append, infix_append_cons_iff (by decide), List.append_assoc,
      emptyLine_infix_append_iff (by decide), List.append_assoc,
      emptyLine_infix_append_iff proper.version_closed, occurs]
    simp only [not_or, not_exists, not_and]
    constructor
    · rintro ⟨method, target, names⟩
      exact ⟨method, target, names⟩
    · rintro ⟨method, target, names⟩
      exact ⟨method, target, names⟩

end Head

namespace Tape

/-- **Where a head ends.** The bytes of a head that was read end with an empty line. It is the first
in the bytes ahead exactly when no field holds one; version and values hold no carriage return at
all. -/
theorem readHead_ends {tape : Tape} (sound : tape.Sound) {head : Head} {count : Nat}
    (reads : tape.ReadsHead head count) :
    (∃ before after, tape.ahead = before ++ (Byte.emptyLine ++ after) ∧
        before.length + Byte.emptyLine.length = count) ∧
      ((∀ before after, tape.ahead = before ++ (Byte.emptyLine ++ after) →
        count ≤ before.length + Byte.emptyLine.length) ↔ head.Compact) ∧
      Byte.cr ∉ Utf8.encode head.version ∧
      ∀ header ∈ head.headers, Byte.cr ∉ Utf8.encode header.2 := by
  obtain ⟨proper, text, rest, spelled, rfl, ahead⟩ := sound.readsHead_iff_spells.mp reads
  obtain ⟨begun, rfl, compact⟩ := spelled.ends proper
  have counts : (begun ++ (Byte.lineEnd ++ [Byte.cr])).length + 1 =
      (begun ++ Byte.emptyLine).length := by
    simp only [List.length_append]
    rfl
  have split : tape.ahead = begun ++ (Byte.lineEnd ++ [Byte.cr]) ++ Byte.lf :: rest := by
    rw [ahead]
    simp [Byte.emptyLine, Byte.lineEnd]
  refine ⟨⟨begun, rest, ?_, ?_⟩, ?_, proper.version_closed, fun header among =>
    (proper.headers header among).value_closed⟩
  · rw [ahead, List.append_assoc]
  · rw [List.length_append]
  · rw [← compact, not_infix_iff, split, counts]

/-- A head with one header ends with the first of two empty lines. -/
theorem readHead_ends_host :
    let tape := ofBytes (Byte.ofAscii "GET / HTTP/1.1\r\nHost: a\r\n\r\nbody\r\n\r\n")
    let head : Head := ⟨"GET", "/", "1.1", [("Host", "a")]⟩
    tape.ReadsHead head 27 ∧
      ∀ before after, tape.ahead = before ++ (Byte.emptyLine ++ after) →
        27 ≤ before.length + Byte.emptyLine.length := by
  intro tape head
  have sound : tape.Sound := ⟨ofBytes_valid _, by decide⟩
  have reads : tape.ReadsHead head 27 :=
    sound.readsHead_of_scan (by decide +kernel) (by decide +kernel)
  have compact : head.Compact := by constructor <;> decide +kernel
  exact ⟨reads, (readHead_ends sound reads).2.1.mpr compact⟩

/-- After a line without a colon the empty line and the bytes after it are read as part of a name. -/
theorem readHead_passes_empty_line :
    let tape := ofBytes (Byte.ofAscii "GET / HTTP/1.1\r\nHost\r\n\r\nname: value\r\n\r\n")
    let head : Head := ⟨"GET", "/", "1.1", [("Host\r\n\r\nname", "value")]⟩
    let before := Byte.ofAscii "GET / HTTP/1.1\r\nHost"
    tape.ReadsHead head 39 ∧
      tape.ahead = before ++ (Byte.emptyLine ++ Byte.ofAscii "name: value\r\n\r\n") ∧
      before.length + Byte.emptyLine.length < 39 ∧
      ∃ header ∈ head.headers, Byte.lineEnd <:+: Utf8.encode header.1 := by
  intro tape head before
  have sound : tape.Sound := ⟨ofBytes_valid _, by decide⟩
  have reads : tape.ReadsHead head 39 :=
    sound.readsHead_of_scan (by decide +kernel) (by decide +kernel)
  exact ⟨reads, by decide, by decide, _, List.mem_singleton_self _, by decide +kernel⟩

end Tape

end WireScan
