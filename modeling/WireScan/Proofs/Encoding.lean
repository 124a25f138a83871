import WireScan.Fault
import Mathlib.Order.Bounds.Defs
import Mathlib.Tactic.SplitIfs

/-!
# Texts and their bytes

Reading bytes as UTF-8 undoes writing a text as UTF-8, and no other bytes are read
(`Utf8.decode_eq_ok_iff`, `textOf_eq_ok_iff`). Other bytes are refused where the longest front that
is a text ends, with as many bytes as begin a character there (`Utf8.decode_eq_error_iff`).

A character of one byte is read at once. For a longer one, the lead byte says how many bytes are
owed and how far the next may range (`Utf8.ofLead_eq`), and the bytes that complete it
(`Utf8.Pending.Completes`) are those that the standard library writes for the character they make,
by arithmetic for each length (`Utf8.encodeChar_of_completes`, `Utf8.completes_of_encodeChar`). A
byte that is taken can always be followed by others that complete the character
(`Utf8.Pending.exists_completes`), so a refused one is a byte that no character goes on with.
-/
namespace WireScan

namespace Utf8

/-- A byte that can stand in a character after its first. -/
abbrev Continues (byte : UInt8) : Prop := 0x80 ≤ byte.toNat ∧ byte.toNat ≤ 0xBF

namespace Pending

/-- A byte is in the range of the next byte of a character. -/
abbrev Takes (pending : Pending) (byte : UInt8) : Prop := pending.low ≤ byte ∧ byte ≤ pending.high

/-- Bytes complete a character of which some bytes were read, and make it the character with a
number. -/
inductive Completes : Pending → List UInt8 → Nat → Prop
  /-- The last byte is owed. -/
  | last {pending : Pending} {byte : UInt8} (taken : pending.Takes byte) (owed : pending.owed ≤ 1) :
    Completes pending [byte] (pending.join byte)
  /-- More bytes are owed. -/
  | more {pending : Pending} {byte : UInt8} {bytes : List UInt8} {code : Nat}
    (taken : pending.Takes byte) (owed : 1 < pending.owed)
    (later : Completes (pending.next byte) bytes code) : Completes pending (byte :: bytes) code

/-- A byte is taken exactly where it is not refused. -/
theorem takes_iff {pending : Pending} {byte : UInt8} :
    pending.Takes byte ↔ ¬(byte < pending.low ∨ pending.high < byte) := by
  simp only [not_or, UInt8.not_lt]

/-- After the first byte that was owed, the next may be any byte that continues a character. -/
theorem takes_next_iff {pending : Pending} {first byte : UInt8} :
    (pending.next first).Takes byte ↔ Continues byte := by
  simp only [Takes, next, Continues, UInt8.le_iff_toNat_le, UInt8.reduceToNat]

variable {pending : Pending} {bytes : List UInt8} {code : Nat}

/-- With one byte owed, that byte completes the character. -/
theorem completes_one_iff (owed : pending.owed = 1) :
    pending.Completes bytes code ↔
      ∃ byte, bytes = [byte] ∧ pending.Takes byte ∧ code = pending.join byte := by
  constructor
  · intro completes
    cases completes with
    | last taken _ => exact ⟨_, rfl, taken, rfl⟩
    | more _ several _ => omega
  · rintro ⟨byte, rfl, taken, rfl⟩
    exact .last taken (Nat.le_of_eq owed)

/-- With more bytes owed, the first of them leaves the others owed. -/
theorem completes_more_iff (owed : 1 < pending.owed) :
    pending.Completes bytes code ↔
      ∃ byte later, bytes = byte :: later ∧ pending.Takes byte ∧
        (pending.next byte).Completes later code := by
  constructor
  · intro completes
    cases completes with
    | last _ single => omega
    | more taken _ later => exact ⟨_, _, rfl, taken, later⟩
  · rintro ⟨byte, later, rfl, taken, completes⟩
    exact .more taken owed completes

/-- With two bytes owed, the second of them may be any byte that continues a character. -/
theorem completes_two_iff (owed : pending.owed = 2) :
    pending.Completes bytes code ↔
      ∃ first second, bytes = [first, second] ∧ pending.Takes first ∧ Continues second ∧
        code = pending.join first * 64 + second.toNat % 64 := by
  rw [completes_more_iff (by omega)]
  constructor
  · rintro ⟨first, _, rfl, taken, later⟩
    rw [completes_one_iff (by rw [next, owed])] at later
    obtain ⟨second, rfl, continues, rfl⟩ := later
    exact ⟨first, second, rfl, taken, takes_next_iff.mp continues, rfl⟩
  · rintro ⟨first, second, rfl, taken, continues, rfl⟩
    refine ⟨first, [second], rfl, taken, (completes_one_iff (by rw [next, owed])).mpr ?_⟩
    exact ⟨second, rfl, takes_next_iff.mpr continues, rfl⟩

/-- With three bytes owed, the later two may be any bytes that continue a character. -/
theorem completes_three_iff (owed : pending.owed = 3) :
    pending.Completes bytes code ↔
      ∃ first second third, bytes = [first, second, third] ∧ pending.Takes first ∧
        Continues second ∧ Continues third ∧
        code = (pending.join first * 64 + second.toNat % 64) * 64 + third.toNat % 64 := by
  rw [completes_more_iff (by omega)]
  constructor
  · rintro ⟨first, _, rfl, taken, later⟩
    rw [completes_two_iff (by rw [next, owed])] at later
    obtain ⟨second, third, rfl, continues, last, rfl⟩ := later
    exact ⟨first, second, third, rfl, taken, takes_next_iff.mp continues, last, rfl⟩
  · rintro ⟨first, second, third, rfl, taken, continues, last, rfl⟩
    refine ⟨first, [second, third], rfl, taken, (completes_two_iff (by rw [next, owed])).mpr ?_⟩
    exact ⟨second, third, rfl, takes_next_iff.mpr continues, last, rfl⟩

/-- Where bytes complete a character, reading goes on behind it. -/
theorem Completes.charsFrom_append (completes : pending.Completes bytes code) (index : Nat)
    (rest : List UInt8) :
    charsFrom index (some pending) (bytes ++ rest) =
      (Char.ofNat code :: ·) <$> charsFrom (index + pending.seen + bytes.length) none rest := by
  induction completes with
  | last taken owed =>
    rw [List.cons_append, charsFrom, if_neg (takes_iff.mp taken), if_pos owed]
    rfl
  | @more pending byte bytes code taken owed later ih =>
    have counted : index + (pending.next byte).seen + bytes.length =
        index + pending.seen + (byte :: bytes).length := by
      simp only [next, List.length_cons]
      omega
    rw [List.cons_append, charsFrom, if_neg (takes_iff.mp taken), if_neg (Nat.not_le.mpr owed), ih,
      counted]

/-- A byte that is taken can be followed by others that complete the character. By induction on the
bytes owed: after the first of them any byte that continues a character is taken. -/
theorem exists_completes {byte : UInt8} (taken : pending.Takes byte) :
    ∃ later code, pending.Completes (byte :: later) code := by
  induction owed : pending.owed generalizing pending byte with
  | zero => exact ⟨[], _, .last taken (by omega)⟩
  | succ count ih =>
    by_cases single : pending.owed ≤ 1
    · exact ⟨[], _, .last taken single⟩
    · have continues : (pending.next byte).Takes 0x80 := takes_next_iff.mpr (by decide)
      have fewer : (pending.next byte).owed = count := by rw [next, owed, Nat.add_sub_cancel]
      obtain ⟨later, code, completes⟩ := ih continues fewer
      exact ⟨0x80 :: later, code, .more taken (Nat.lt_of_not_le single) completes⟩

/-- Bytes of a character lead from one state of it to another, with more bytes owed. -/
inductive Leads : Pending → List UInt8 → Pending → Prop
  /-- No byte leads nowhere else. -/
  | here (pending : Pending) : Leads pending [] pending
  /-- A byte that is not the last leads on. -/
  | on {pending reached : Pending} {byte : UInt8} {bytes : List UInt8}
    (taken : pending.Takes byte) (owed : 1 < pending.owed)
    (later : Leads (pending.next byte) bytes reached) : Leads pending (byte :: bytes) reached

variable {reached : Pending}

/-- Where some byte is taken at first some byte is taken after bytes that lead on. -/
theorem Leads.takes (leads : pending.Leads bytes reached) (first : ∃ byte, pending.Takes byte) :
    ∃ byte, reached.Takes byte := by
  induction leads with
  | here pending => exact first
  | on taken owed later ih => exact ih ⟨0x80, takes_next_iff.mpr (by decide)⟩

/-- What completes a character from where bytes led completes it after them. -/
theorem Leads.completes {missing : List UInt8} (leads : pending.Leads bytes reached)
    (completes : reached.Completes missing code) : pending.Completes (bytes ++ missing) code := by
  induction leads with
  | here pending => exact completes
  | on taken owed later ih => exact .more taken owed (ih completes)

/-- A front of the bytes that complete a character leads where the others complete it. -/
theorem Completes.leads {missing : List UInt8}
    (completes : pending.Completes (bytes ++ missing) code) (some : missing ≠ []) :
    ∃ reached, pending.Leads bytes reached := by
  induction bytes generalizing pending with
  | nil => exact ⟨pending, .here pending⟩
  | cons byte bytes ih =>
    generalize whole : byte :: bytes ++ missing = input at completes
    cases completes with
    | last taken owed =>
      have none : bytes ++ missing = [] := (List.cons.inj whole).2
      exact absurd (List.append_eq_nil_iff.mp none).2 some
    | more taken owed later =>
      cases whole
      obtain ⟨reached, leads⟩ := ih later
      exact ⟨reached, .on taken owed leads⟩

/-- Reading goes on from where the bytes of a character led. -/
theorem Leads.charsFrom_append (leads : pending.Leads bytes reached) (index : Nat)
    (rest : List UInt8) :
    charsFrom index (some pending) (bytes ++ rest) = charsFrom index (some reached) rest := by
  induction leads with
  | here pending => rfl
  | on taken owed later ih =>
    rw [List.cons_append, charsFrom, if_neg (takes_iff.mp taken), if_neg (Nat.not_le.mpr owed), ih]

/-- A byte that is not taken is refused, with the bytes before it that were seen. -/
theorem charsFrom_refused {byte : UInt8} (refused : ¬pending.Takes byte) (index : Nat)
    (rest : List UInt8) :
    charsFrom index (some pending) (byte :: rest) = .error ⟨index, some pending.seen⟩ := by
  rw [takes_iff, Decidable.not_not] at refused
  rw [charsFrom, if_pos refused]

/-- As many more bytes were read as led on. -/
theorem Leads.seen_eq (leads : pending.Leads bytes reached) :
    reached.seen = pending.seen + bytes.length := by
  induction leads with
  | here pending => rfl
  | on taken owed later ih =>
    simp only [ih, next, List.length_cons]
    omega

/-- Inside a character the bytes ahead complete it, or end inside it, or go on with a byte that it
does not take. -/
theorem completes_or_leads (pending : Pending) (input : List UInt8) :
    (∃ bytes rest code, input = bytes ++ rest ∧ pending.Completes bytes code) ∨
      (∃ reached, pending.Leads input reached) ∨
      ∃ bytes byte rest reached, input = bytes ++ byte :: rest ∧ pending.Leads bytes reached ∧
        ¬reached.Takes byte := by
  induction input generalizing pending with
  | nil => exact .inr (.inl ⟨pending, .here pending⟩)
  | cons byte input ih =>
    by_cases taken : pending.Takes byte
    · by_cases owed : pending.owed ≤ 1
      · exact .inl ⟨[byte], input, _, rfl, .last taken owed⟩
      · have several := Nat.lt_of_not_le owed
        rcases ih (pending.next byte) with ⟨bytes, rest, code, rfl, completes⟩ |
          ⟨reached, leads⟩ | ⟨bytes, other, rest, reached, rfl, leads, refused⟩
        · exact .inl ⟨byte :: bytes, rest, code, rfl, .more taken several completes⟩
        · exact .inr (.inl ⟨reached, .on taken several leads⟩)
        · exact .inr (.inr ⟨byte :: bytes, other, rest, reached, rfl, .on taken several leads,
            refused⟩)
    · exact .inr (.inr ⟨[], byte, input, pending, rfl, .here pending, taken⟩)

end Pending

/-! ## Lead bytes -/

/-- What a lead byte opens: a character of two, three or four bytes. The least and the greatest lead
byte of a length narrow the range of the byte after it, and so does the one of the surrogates. -/
theorem ofLead_eq (lead : UInt8) :
    Pending.ofLead lead =
      if 0xC2 ≤ lead ∧ lead ≤ 0xDF then some ⟨1, 1, 0x80, 0xBF, lead.toNat - 0xC0⟩
      else if 0xE0 ≤ lead ∧ lead ≤ 0xEF then
        some ⟨1, 2, if lead = 0xE0 then 0xA0 else 0x80, if lead = 0xED then 0x9F else 0xBF,
          lead.toNat - 0xE0⟩
      else if 0xF0 ≤ lead ∧ lead ≤ 0xF4 then
        some ⟨1, 3, if lead = 0xF0 then 0x90 else 0x80, if lead = 0xF4 then 0x8F else 0xBF,
          lead.toNat - 0xF0⟩
      else none := by
  by_cases narrow : lead = 0xE0 ∨ lead = 0xED ∨ lead = 0xF0 ∨ lead = 0xF4
  · rcases narrow with rfl | rfl | rfl | rfl <;> rfl
  · simp only [not_or] at narrow
    obtain ⟨least, surrogate, large, largest⟩ := narrow
    have three : 0xE1 ≤ lead ∧ lead ≤ 0xEF ↔ 0xE0 ≤ lead ∧ lead ≤ 0xEF := by
      simp only [UInt8.le_iff_toNat_le, ← UInt8.toNat_inj, UInt8.reduceToNat] at *
      omega
    have four : 0xF1 ≤ lead ∧ lead ≤ 0xF3 ↔ 0xF0 ≤ lead ∧ lead ≤ 0xF4 := by
      simp only [UInt8.le_iff_toNat_le, ← UInt8.toNat_inj, UInt8.reduceToNat] at *
      omega
    simp only [Pending.ofLead, least, surrogate, large, largest, three, four, if_false]

/-- The range of a byte that the lead byte before it may narrow from below and from above. -/
theorem narrowed_iff {lead byte below above least most : UInt8} (raised : 0x80 ≤ least)
    (lowered : most ≤ 0xBF) :
    ((if lead = below then least else 0x80) ≤ byte ∧
        byte ≤ if lead = above then most else 0xBF) ↔
      Continues byte ∧ (lead.toNat = below.toNat → least.toNat ≤ byte.toNat) ∧
        (lead.toNat = above.toNat → byte.toNat ≤ most.toNat) := by
  simp only [UInt8.le_iff_toNat_le, UInt8.reduceToNat, UInt8.toNat_inj,
    apply_ite UInt8.toNat] at *
  split <;> split <;> simp_all <;> omega

/-! ## Characters -/

variable {code : Nat} {bytes : List UInt8}

/-- The number of the character with a valid number is that number. -/
theorem toNat_val_ofNat (valid : code.isValidChar) : (Char.ofNat code).val.toNat = code := by
  rw [Char.ofNat, dif_pos valid]
  rfl

/-- The bytes of a character of two bytes. -/
theorem encodeChar_two_iff (valid : code.isValidChar) (wide : 0x80 ≤ code) (most : code ≤ 0x7FF) :
    String.utf8EncodeChar (Char.ofNat code) = bytes ↔
      ∃ lead second : UInt8, bytes = [lead, second] ∧ lead.toNat = code / 64 + 0xC0 ∧
        second.toNat = code % 64 + 0x80 := by
  rw [String.utf8EncodeChar, toNat_val_ofNat valid, if_neg (by omega), if_pos most]
  constructor
  · rintro rfl
    refine ⟨_, _, rfl, ?_, ?_⟩ <;> rw [UInt8.toNat_ofNat'] <;> omega
  · rintro ⟨lead, second, rfl, _, _⟩
    simp only [List.cons.injEq, UInt8.ofNat_eq_iff_mod_eq_toNat, and_true]
    omega

/-- The bytes of a character of three bytes. -/
theorem encodeChar_three_iff (valid : code.isValidChar) (wide : 0x800 ≤ code)
    (most : code ≤ 0xFFFF) :
    String.utf8EncodeChar (Char.ofNat code) = bytes ↔
      ∃ lead second third : UInt8, bytes = [lead, second, third] ∧
        lead.toNat = code / 4096 + 0xE0 ∧ second.toNat = code / 64 % 64 + 0x80 ∧
        third.toNat = code % 64 + 0x80 := by
  rw [String.utf8EncodeChar, toNat_val_ofNat valid, if_neg (by omega), if_neg (by omega),
    if_pos most]
  constructor
  · rintro rfl
    refine ⟨_, _, _, rfl, ?_, ?_, ?_⟩ <;> rw [UInt8.toNat_ofNat'] <;> omega
  · rintro ⟨lead, second, third, rfl, _, _, _⟩
    simp only [List.cons.injEq, UInt8.ofNat_eq_iff_mod_eq_toNat, and_true]
    omega

/-- The bytes of a character of four bytes. -/
theorem encodeChar_four_iff (valid : code.isValidChar) (wide : 0x10000 ≤ code) :
    String.utf8EncodeChar (Char.ofNat code) = bytes ↔
      ∃ lead second third fourth : UInt8, bytes = [lead, second, third, fourth] ∧
        lead.toNat = code / 262144 + 0xF0 ∧ second.toNat = code / 4096 % 64 + 0x80 ∧
        third.toNat = code / 64 % 64 + 0x80 ∧ fourth.toNat = code % 64 + 0x80 := by
  have most : code < 0x110000 := by
    unfold Nat.isValidChar at valid
    omega
  rw [String.utf8EncodeChar, toNat_val_ofNat valid, if_neg (by omega), if_neg (by omega),
    if_neg (by omega)]
  constructor
  · rintro rfl
    refine ⟨_, _, _, _, rfl, ?_, ?_, ?_, ?_⟩ <;> rw [UInt8.toNat_ofNat'] <;> omega
  · rintro ⟨lead, second, third, fourth, rfl, _, _, _, _⟩
    simp only [List.cons.injEq, UInt8.ofNat_eq_iff_mod_eq_toNat, and_true]
    omega

/-- The bytes that complete a character after its lead byte are those of the character they make. -/
theorem encodeChar_of_completes {lead : UInt8} {pending : Pending}
    (opens : Pending.ofLead lead = some pending) (completes : pending.Completes bytes code) :
    code.isValidChar ∧ String.utf8EncodeChar (Char.ofNat code) = lead :: bytes := by
  rw [ofLead_eq] at opens
  simp only [UInt8.le_iff_toNat_le, UInt8.reduceToNat] at opens
  split at opens
  · cases opens
    rw [Pending.completes_one_iff rfl] at completes
    obtain ⟨second, rfl, taken, made⟩ := completes
    simp only [Pending.Takes, Pending.join, UInt8.le_iff_toNat_le, UInt8.reduceToNat] at taken made
    have valid : code.isValidChar := .inl (by omega)
    refine ⟨valid, (encodeChar_two_iff valid ?_ ?_).mpr ⟨_, _, rfl, ?_, ?_⟩⟩ <;> omega
  split at opens
  · cases opens
    rw [Pending.completes_two_iff rfl] at completes
    obtain ⟨second, third, rfl, taken, continues, made⟩ := completes
    have range := (narrowed_iff (by decide) (by decide)).mp taken
    simp only [Pending.join, UInt8.reduceToNat] at range made
    have valid : code.isValidChar := by
      unfold Nat.isValidChar
      omega
    refine ⟨valid, (encodeChar_three_iff valid ?_ ?_).mpr ⟨_, _, _, rfl, ?_, ?_, ?_⟩⟩ <;> omega
  split at opens
  · cases opens
    rw [Pending.completes_three_iff rfl] at completes
    obtain ⟨second, third, fourth, rfl, taken, continues, last, made⟩ := completes
    have range := (narrowed_iff (by decide) (by decide)).mp taken
    simp only [Pending.join, UInt8.reduceToNat] at range made
    have valid : code.isValidChar := by
      unfold Nat.isValidChar
      omega
    refine ⟨valid, (encodeChar_four_iff valid ?_).mpr ⟨_, _, _, _, rfl, ?_, ?_, ?_, ?_⟩⟩ <;> omega
  · cases opens

/-- The bytes of a character of more than one byte are a lead byte and those that complete it. -/
theorem completes_of_encodeChar (valid : code.isValidChar) (wide : 0x80 ≤ code)
    (encoded : String.utf8EncodeChar (Char.ofNat code) = bytes) :
    ∃ lead pending later, bytes = lead :: later ∧ Pending.ofLead lead = some pending ∧
      pending.Completes later code := by
  have opened := ofLead_eq
  simp only [UInt8.le_iff_toNat_le, UInt8.reduceToNat] at opened
  by_cases two : code ≤ 0x7FF
  · obtain ⟨lead, second, rfl, leads, seconds⟩ := (encodeChar_two_iff valid wide two).mp encoded
    refine ⟨lead, _, _, rfl, by rw [opened, if_pos (by omega)], ?_⟩
    refine (Pending.completes_one_iff rfl).mpr ⟨second, rfl, ?_, ?_⟩
    · simp only [Pending.Takes, UInt8.le_iff_toNat_le, UInt8.reduceToNat]
      omega
    · simp only [Pending.join]
      omega
  by_cases three : code ≤ 0xFFFF
  · obtain ⟨lead, second, third, rfl, leads, seconds, thirds⟩ :=
      (encodeChar_three_iff valid (by omega) three).mp encoded
    refine ⟨lead, _, _, rfl, by rw [opened, if_neg (by omega), if_pos (by omega)], ?_⟩
    refine (Pending.completes_two_iff rfl).mpr ⟨second, third, rfl, ?_, by omega, ?_⟩
    · refine (narrowed_iff (by decide) (by decide)).mpr ?_
      unfold Nat.isValidChar at valid
      simp only [UInt8.reduceToNat]
      omega
    · simp only [Pending.join]
      omega
  · obtain ⟨lead, second, third, fourth, rfl, leads, seconds, thirds, fourths⟩ :=
      (encodeChar_four_iff valid (by omega)).mp encoded
    have most : code < 0x110000 := by
      unfold Nat.isValidChar at valid
      omega
    refine ⟨lead, _, _, rfl,
      by rw [opened, if_neg (by omega), if_neg (by omega), if_pos (by omega)], ?_⟩
    refine (Pending.completes_three_iff rfl).mpr
      ⟨second, third, fourth, rfl, ?_, by omega, by omega, ?_⟩
    · refine (narrowed_iff (by decide) (by decide)).mpr ?_
      simp only [UInt8.reduceToNat]
      omega
    · simp only [Pending.join]
      omega

/-- What a lead byte opens goes on with some byte, and the lead byte is no character itself. -/
theorem ofLead_some {lead : UInt8} {pending : Pending}
    (opens : Pending.ofLead lead = some pending) :
    ¬lead < 0x80 ∧ pending.seen = 1 ∧ pending.Takes pending.low := by
  simp only [Pending.ofLead, UInt8.le_iff_toNat_le, ← UInt8.toNat_inj, UInt8.reduceToNat] at opens
  simp only [UInt8.lt_iff_toNat_lt, UInt8.reduceToNat]
  split_ifs at opens <;> cases opens <;> refine ⟨by omega, rfl, UInt8.le_refl _, ?_⟩ <;>
    dsimp only <;> decide

/-- A byte below the others is a character. -/
theorem encodeChar_ascii {lead : UInt8} (ascii : lead < 0x80) :
    String.utf8EncodeChar (Char.ofNat lead.toNat) = [lead] := by
  rw [UInt8.lt_iff_toNat_lt] at ascii
  have valid : lead.toNat.isValidChar := .inl (Nat.lt_trans ascii (by decide))
  rw [String.utf8EncodeChar, toNat_val_ofNat valid, if_pos (Nat.le_of_lt_succ ascii),
    UInt8.ofNat_toNat]

/-- The bytes of a character are one small byte, or a lead byte and those that complete it. -/
theorem encodeChar_cases (char : Char) :
    (∃ lead : UInt8, lead < 0x80 ∧ char = Char.ofNat lead.toNat ∧
      String.utf8EncodeChar char = [lead]) ∨
    ∃ lead pending later, Pending.ofLead lead = some pending ∧
      pending.Completes later char.toNat ∧ String.utf8EncodeChar char = lead :: later := by
  by_cases narrow : char.toNat < 0x80
  · have number : (UInt8.ofNat char.toNat).toNat = char.toNat := by
      rw [UInt8.toNat_ofNat']
      omega
    have ascii : UInt8.ofNat char.toNat < 0x80 := by
      rw [UInt8.lt_iff_toNat_lt, number]
      exact narrow
    have made : char = Char.ofNat (UInt8.ofNat char.toNat).toNat := by
      rw [number, Char.ofNat_toNat]
    refine .inl ⟨_, ascii, made, ?_⟩
    rw [made, encodeChar_ascii (made ▸ ascii), ← made]
  · have valid : char.toNat.isValidChar := char.valid
    have encoded := congrArg String.utf8EncodeChar (Char.ofNat_toNat char)
    obtain ⟨lead, pending, later, bytes, opens, completes⟩ :=
      completes_of_encodeChar valid (Nat.le_of_not_lt narrow) encoded
    exact .inr ⟨lead, pending, later, opens, completes, bytes⟩

/-- A character is read from its bytes, and reading goes on behind them. -/
theorem charsFrom_encodeChar (char : Char) (index : Nat) (rest : List UInt8) :
    charsFrom index none (String.utf8EncodeChar char ++ rest) =
      (char :: ·) <$> charsFrom (index + (String.utf8EncodeChar char).length) none rest := by
  rcases encodeChar_cases char with ⟨lead, ascii, rfl, bytes⟩ | ⟨lead, pending, later, opens,
    completes, bytes⟩
  · rw [bytes, List.singleton_append, charsFrom, if_pos ascii]
    rfl
  · obtain ⟨high, first, -⟩ := ofLead_some opens
    have counted : index + pending.seen + later.length = index + (lead :: later).length := by
      rw [first, List.length_cons]
      omega
    rw [bytes, List.cons_append, charsFrom, if_neg high, opens]
    dsimp only
    rw [completes.charsFrom_append, counted, Char.ofNat_toNat]

/-- Characters are read from their bytes, and reading goes on behind them. -/
theorem charsFrom_append {chars : List Char} (spelled : chars.flatMap String.utf8EncodeChar = bytes)
    (index : Nat) (rest : List UInt8) :
    charsFrom index none (bytes ++ rest) =
      (chars ++ ·) <$> charsFrom (index + bytes.length) none rest := by
  subst spelled
  induction chars generalizing index with
  | nil =>
    show charsFrom index none rest = ([] ++ ·) <$> charsFrom index none rest
    cases charsFrom index none rest <;> rfl
  | cons char chars ih =>
    rw [List.flatMap_cons, List.append_assoc, charsFrom_encodeChar, ih, List.length_append,
      Nat.add_assoc]
    cases charsFrom _ none rest <;> rfl

/-! ## Broken characters -/

/-- Some character has the bytes in front. -/
def Begins (bytes : List UInt8) : Prop := ∃ char, bytes <+: String.utf8EncodeChar char

/-- The bytes are some of those of a character, but not all. -/
def Begun (bytes : List UInt8) : Prop :=
  bytes ≠ [] ∧ ∃ char, bytes <+: String.utf8EncodeChar char ∧ bytes ≠ String.utf8EncodeChar char

/-- The bytes begin with no character. They end inside one, or as many of them as are given are
passed over: a byte that begins none, or all bytes that begin one, up to a byte that no character
goes on with. -/
inductive Broken : List UInt8 → Option Nat → Prop
  /-- The bytes end inside a character. -/
  | cutOff {bytes : List UInt8} (begun : Begun bytes) : Broken bytes none
  /-- No character begins with the byte. -/
  | stray {byte : UInt8} (none : ¬Begins [byte]) (rest : List UInt8) :
      Broken (byte :: rest) (some 1)
  /-- No character that begins with the bytes goes on with the next. -/
  | brokenOff {bytes : List UInt8} {byte : UInt8} (begun : Begun bytes)
      (none : ¬Begins (bytes ++ [byte])) (rest : List UInt8) :
      Broken (bytes ++ byte :: rest) (some bytes.length)

/-- A lead byte and bytes that lead on from it are read as far as they lead. -/
theorem charsFrom_opened {lead : UInt8} {pending reached : Pending}
    (opens : Pending.ofLead lead = some pending) (leads : pending.Leads bytes reached) (index : Nat)
    (rest : List UInt8) :
    charsFrom index none (lead :: bytes ++ rest) = charsFrom index (some reached) rest := by
  rw [List.cons_append, charsFrom, if_neg (ofLead_some opens).1, opens]
  exact leads.charsFrom_append index rest

/-- Where reading is refused no character is in front. -/
theorem not_begins_of_refused
    (refused : ∀ rest, ∃ fault, charsFrom 0 none (bytes ++ rest) = .error fault) :
    ¬Begins bytes := by
  rintro ⟨char, rest, whole⟩
  obtain ⟨fault, stopped⟩ := refused rest
  have read := charsFrom_encodeChar char 0 []
  rw [List.append_nil, ← whole, stopped] at read
  cases read

/-- No character begins with a byte that is none and opens none. -/
theorem not_begins_stray {lead : UInt8} (high : ¬lead < 0x80) (stray : Pending.ofLead lead = none) :
    ¬Begins [lead] := by
  refine not_begins_of_refused fun rest => ⟨⟨0, some 1⟩, ?_⟩
  rw [List.singleton_append, charsFrom, if_neg high, stray]

/-- A character goes on from a state exactly with the bytes that the state takes. -/
theorem begins_concat_iff {lead byte : UInt8} {pending reached : Pending}
    (opens : Pending.ofLead lead = some pending) (leads : pending.Leads bytes reached) :
    Begins (lead :: bytes ++ [byte]) ↔ reached.Takes byte := by
  constructor
  · -- a character would be read to its end, and reading stops at the byte
    refine fun begins => Classical.byContradiction fun refused => ?_
    refine not_begins_of_refused (fun rest => ⟨⟨0, some reached.seen⟩, ?_⟩) begins
    rw [List.append_assoc, charsFrom_opened opens leads]
    exact Pending.charsFrom_refused refused 0 rest
  · intro taken
    obtain ⟨later, code, completes⟩ := Pending.exists_completes taken
    have encoded := (encodeChar_of_completes opens (leads.completes completes)).2
    refine ⟨Char.ofNat code, later, ?_⟩
    rw [encoded, List.append_assoc]
    rfl

/-- The bytes of a character that are not all lead on from its lead byte. -/
theorem begun_iff :
    Begun bytes ↔ ∃ lead pending later reached, bytes = lead :: later ∧
      Pending.ofLead lead = some pending ∧ pending.Leads later reached := by
  constructor
  · rintro ⟨some, char, ⟨missing, whole⟩, less⟩
    have more : missing ≠ [] := by
      rintro rfl
      exact less (by rw [← whole, List.append_nil])
    cases bytes with
    | nil => exact absurd rfl some
    | cons first later =>
      rcases encodeChar_cases char with ⟨lead, _, _, encoded⟩ | ⟨lead, pending, all, opens,
        completes, encoded⟩
      · rw [encoded, List.cons_append, List.cons.injEq, List.append_eq_nil_iff] at whole
        exact absurd whole.2.2 more
      · rw [encoded, List.cons_append, List.cons.injEq] at whole
        obtain ⟨rfl, rfl⟩ := whole
        obtain ⟨reached, leads⟩ := completes.leads more
        exact ⟨first, pending, later, reached, rfl, opens, leads⟩
  · -- one more byte is owed, so the character that has them in front is longer
    rintro ⟨lead, pending, later, reached, rfl, opens, leads⟩
    obtain ⟨byte, taken⟩ := leads.takes ⟨_, (ofLead_some opens).2.2⟩
    obtain ⟨char, rest, whole⟩ := (begins_concat_iff opens leads).mpr taken
    refine ⟨List.cons_ne_nil _ _, char, ⟨byte :: rest, ?_⟩, fun all => ?_⟩
    · rw [← whole, List.append_assoc]
      rfl
    · have longer := congrArg List.length whole
      simp only [← all, List.length_append, List.length_cons] at longer
      omega

/-- Reading is refused at a broken character. -/
theorem Broken.refused {length? : Option Nat} (broken : Broken bytes length?) (index : Nat) :
    charsFrom index none bytes = .error ⟨index, length?⟩ := by
  cases broken with
  | cutOff begun =>
    obtain ⟨lead, pending, later, reached, rfl, opens, leads⟩ := begun_iff.mp begun
    have read := charsFrom_opened opens leads index []
    rw [List.append_nil] at read
    rw [read, charsFrom]
  | @stray byte none rest =>
    have high : ¬byte < 0x80 := fun ascii => none ⟨_, [], (encodeChar_ascii ascii).symm⟩
    cases opens : Pending.ofLead byte with
    | none => rw [charsFrom, if_neg high, opens]
    | some pending =>
      have begun : Begun [byte] := begun_iff.mpr ⟨byte, pending, [], pending, rfl, opens, .here _⟩
      obtain ⟨-, char, begins, -⟩ := begun
      exact absurd ⟨char, begins⟩ none
  | @brokenOff bytes byte begun none rest =>
    obtain ⟨lead, pending, later, reached, rfl, opens, leads⟩ := begun_iff.mp begun
    rw [begins_concat_iff opens leads] at none
    have counted : reached.seen = (lead :: later).length := by
      rw [leads.seen_eq, (ofLead_some opens).2.1, List.length_cons, Nat.add_comm]
    rw [charsFrom_opened opens leads, Pending.charsFrom_refused none, counted]

/-- Bytes begin with a character or with a broken one. -/
theorem exists_char_or_broken (some : bytes ≠ []) :
    (∃ char rest, bytes = String.utf8EncodeChar char ++ rest) ∨
      ∃ length?, Broken bytes length? := by
  cases bytes with
  | nil => exact absurd rfl some
  | cons lead input =>
    by_cases ascii : lead < 0x80
    · exact .inl ⟨_, input, by rw [encodeChar_ascii ascii, List.singleton_append]⟩
    · cases opens : Pending.ofLead lead with
      | none => exact .inr ⟨_, .stray (not_begins_stray ascii opens) input⟩
      | some pending =>
        have begun : ∀ {later reached}, pending.Leads later reached → Begun (lead :: later) :=
          fun leads => begun_iff.mpr ⟨lead, pending, _, _, rfl, opens, leads⟩
        rcases pending.completes_or_leads input with ⟨bytes, rest, code, rfl, completes⟩ |
          ⟨reached, leads⟩ | ⟨bytes, byte, rest, reached, rfl, leads, refused⟩
        · have encoded := (encodeChar_of_completes opens completes).2
          exact .inl ⟨Char.ofNat code, rest, by rw [encoded, List.cons_append]⟩
        · exact .inr ⟨_, .cutOff (begun leads)⟩
        · have none := mt (begins_concat_iff opens leads).mp refused
          exact .inr ⟨_, .brokenOff (begun leads) none rest⟩

/-! ## Texts -/

/-- A text is read from its bytes. -/
theorem decode_encode (text : String) : decode (encode text) = .ok text := by
  have read := charsFrom_append (rfl : _ = encode text) 0 []
  rw [List.append_nil] at read
  rw [decode, read]
  show Except.ok (String.ofList (text.toList ++ [])) = .ok text
  rw [List.append_nil, String.ofList_toList]

/-- A broken character after a text is found behind the text. -/
theorem decode_broken {rest : List UInt8} {length? : Option Nat} (broken : Broken rest length?)
    (text : String) : decode (encode text ++ rest) = .error ⟨(encode text).length, length?⟩ := by
  rw [decode, charsFrom_append (rfl : _ = encode text), broken.refused, Nat.zero_add]
  rfl

/-- Bytes are those of a text, or a broken character comes after a text. By induction on the
number of bytes, with one character less each time. -/
theorem exists_text_or_broken (bytes : List UInt8) :
    (∃ text, bytes = encode text) ∨
      ∃ text rest length?, bytes = encode text ++ rest ∧ Broken rest length? := by
  induction many : bytes.length using Nat.strongRecOn generalizing bytes with
  | ind count ih =>
    by_cases none : bytes = []
    · exact .inl ⟨"", none⟩
    · rcases exists_char_or_broken none with ⟨char, rest, rfl⟩ | ⟨length?, broken⟩
      · have fewer : rest.length < count := by
          have some := char.utf8Size_pos
          rw [← String.length_utf8EncodeChar] at some
          rw [← many, List.length_append]
          omega
        have before : ∀ text, String.utf8EncodeChar char ++ encode text =
            encode (String.ofList [char] ++ text) := by
          intro text
          rw [encode_append, encode, encode, String.toList_ofList, List.flatMap_singleton]
        rcases ih _ fewer rest rfl with ⟨text, rfl⟩ | ⟨text, later, length?, rfl, broken⟩
        · exact .inl ⟨_, before text⟩
        · exact .inr ⟨_, later, length?, by rw [← before, List.append_assoc], broken⟩
      · exact .inr ⟨"", bytes, length?, rfl, broken⟩

/-- Bytes are read as a text exactly when they are the bytes of that text. -/
theorem decode_eq_ok_iff {text : String} : decode bytes = .ok text ↔ bytes = encode text := by
  constructor
  · intro read
    rcases exists_text_or_broken bytes with ⟨other, rfl⟩ | ⟨other, rest, length?, rfl, broken⟩
    · rw [decode_encode] at read
      cases read
      rfl
    · rw [decode_broken broken] at read
      cases read
  · rintro rfl
    exact decode_encode text

/-- Bytes are refused exactly where a broken character comes after a text, at its index. -/
theorem decode_eq_error_iff_broken {fault : Fault} :
    decode bytes = .error fault ↔ ∃ text rest, bytes = encode text ++ rest ∧
      fault.index = (encode text).length ∧ Broken rest fault.length? := by
  constructor
  · intro refused
    rcases exists_text_or_broken bytes with ⟨text, rfl⟩ | ⟨text, rest, length?, rfl, broken⟩
    · rw [decode_encode] at refused
      cases refused
    · rw [decode_broken broken] at refused
      cases refused
      exact ⟨text, rest, rfl, rfl, broken⟩
  · rintro ⟨text, rest, rfl, index, broken⟩
    rw [decode_broken broken, ← index]

/-- How many of the bytes in front are the bytes of a text. -/
def Fronts (bytes : List UInt8) : Set Nat :=
  {count | ∃ text, encode text <+: bytes ∧ (encode text).length = count}

/-- No text that the bytes begin with has more bytes than the one before a broken character. -/
theorem isGreatest_fronts {text : String} {rest : List UInt8} {length? : Option Nat}
    (broken : Broken rest length?) :
    IsGreatest (Fronts (encode text ++ rest)) (encode text).length := by
  refine ⟨⟨text, List.prefix_append _ _, rfl⟩, ?_⟩
  rintro _ ⟨other, ⟨more, parts⟩, rfl⟩
  have refused := decode_broken broken text
  rw [← parts] at refused
  rcases exists_text_or_broken more with ⟨later, rfl⟩ | ⟨later, tail, cut?, rfl, also⟩
  · rw [← encode_append, decode_encode] at refused
    cases refused
  · rw [← List.append_assoc, ← encode_append, decode_broken also, encode_append,
      List.length_append, Except.error.injEq, Fault.mk.injEq] at refused
    rw [← refused.1]
    exact Nat.le_add_right _ _

/-- **Why bytes are no text.** Bytes are refused where a broken character comes after the longest
text in front, and for nothing else: the fault says how many bytes that text has, and how many the
broken character has. -/
theorem decode_eq_error_iff {fault : Fault} :
    decode bytes = .error fault ↔
      IsGreatest (Fronts bytes) fault.index ∧ Broken (bytes.drop fault.index) fault.length? := by
  rw [decode_eq_error_iff_broken]
  constructor
  · rintro ⟨text, rest, rfl, index, broken⟩
    rw [index, List.drop_left]
    exact ⟨isGreatest_fronts broken, broken⟩
  · rintro ⟨⟨⟨text, ⟨rest, rfl⟩, index⟩, _⟩, broken⟩
    rw [← index, List.drop_left] at broken
    exact ⟨text, rest, rfl, index.symm, broken⟩

/-- Two of three bytes of a character are passed over where another byte comes next. -/
example : decode [0x61, 0x62, 0xE2, 0x82, 0x41] = .error ⟨2, some 2⟩ := rfl

end Utf8

/-- Bytes are a text exactly when they are the bytes of that text. -/
theorem textOf_eq_ok_iff {bytes : List UInt8} {text : String} :
    textOf bytes = .ok text ↔ bytes = Utf8.encode text := by
  rw [← Utf8.decode_eq_ok_iff, textOf]
  cases Utf8.decode bytes with
  | ok read => exact ⟨fun same => by cases same; rfl, fun same => by cases same; rfl⟩
  | error fault => exact iff_of_false nofun nofun

end WireScan
