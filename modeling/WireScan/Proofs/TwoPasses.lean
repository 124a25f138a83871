import WireScan.Proofs.Encoding
import WireScan.Proofs.Literals
import WireScan.Proofs.Progress

/-!
# Numerals read in two passes

A numeral may be read in two passes that know nothing of each other: one finds how many bytes the
literal has (`Numeral.extent`), the other is given those bytes as a text and reads them as a whole.
The second pass may be any reading of texts that accepts what the documented grammar of numbers says
(`Numeral.Documented`), which is not put as that of literals is but describes the same bytes
(`Numeral.literal_iff_documented`). The first pass finds the literal that reading in one pass does
(`Numeral.measures_literal`), the longest there is, and a literal is text; so the second pass
accepts all that it is given (`Numeral.twoPass_of_longest`), and both ways of reading come to the
same (`Numeral.scan_eq_twoPass`, `Session.reads_longest_literal`).
-/
namespace WireScan.Numeral

/-! ## The documented grammar -/

namespace Grammar

/-- Digits, or digits with a point that has a digit on one side. -/
inductive Number : List UInt8 → Prop
  /-- Digits. -/
  | whole {digits : List UInt8} (all : Digits digits) (some : digits ≠ []) : Number digits
  /-- Digits, a point and any number of digits. -/
  | before {whole fraction : List UInt8} (all : Digits whole) (some : whole ≠ [])
    (further : Digits fraction) : Number (whole ++ '.'.toUInt8 :: fraction)
  /-- Any number of digits, a point and digits. -/
  | after {whole fraction : List UInt8} (all : Digits whole) (further : Digits fraction)
    (some : fraction ≠ []) : Number (whole ++ '.'.toUInt8 :: fraction)

/-- An optional power. -/
inductive Exponent : List UInt8 → Prop
  /-- No power. -/
  | none : Exponent []
  /-- The letter of a power, an optional sign and digits. -/
  | some {signs digits : List UInt8} {negative : Bool} (signed : Signs signs negative)
    (all : Digits digits) (some : digits ≠ []) : Exponent ('e'.toUInt8 :: (signs ++ digits))

/-- A word, or a number with an optional power. -/
inductive Unsigned : List UInt8 → Prop
  /-- The short word for an infinity. -/
  | inf : Unsigned (Byte.ofAscii "inf")
  /-- The long word for an infinity. -/
  | infinity : Unsigned (Byte.ofAscii "infinity")
  /-- The word for no number. -/
  | nan : Unsigned (Byte.ofAscii "nan")
  /-- A number with an optional power. -/
  | number {digits power : List UInt8} (number : Number digits) (exponent : Exponent power) :
    Unsigned (digits ++ power)

/-- An optional sign and what stands without one. -/
inductive Signed : List UInt8 → Prop
  /-- An optional sign and what stands without one. -/
  | signed {signs bytes : List UInt8} {negative : Bool} (signed : Signs signs negative)
    (unsigned : Unsigned bytes) : Signed (signs ++ bytes)

end Grammar

/-- The bytes are in the documented grammar when their letters are made small. -/
def Documented (bytes : List UInt8) : Prop := Grammar.Signed (bytes.map Byte.fold)

/-! ## Case -/

/-- None of the bytes is a letter. -/
def Caseless (bytes : List UInt8) : Prop := ∀ byte ∈ bytes, byte < 65

/-- Bytes without letters are those that they are in small letters, and no others are. -/
theorem Caseless.map_fold_eq_iff {bytes : List UInt8} (caseless : Caseless bytes)
    {letters : List UInt8} : letters.map Byte.fold = bytes ↔ letters = bytes := by
  have kept : ∀ byte, byte < 65 → Byte.fold byte = byte := by
    intro byte below
    have none : ¬(65 ≤ byte ∧ byte ≤ 90) := fun capital => UInt8.not_le.mpr below capital.1
    rw [Byte.fold, if_neg none]
  constructor
  · rintro rfl
    refine ((List.map_congr_left fun byte among => ?_).trans (List.map_id _)).symm
    have below := caseless _ (List.mem_map_of_mem among)
    exact Byte.fold_of_lt (UInt8.lt_trans below (by decide))
  · rintro rfl
    exact (List.map_congr_left fun byte among => kept byte (caseless byte among)).trans
      (List.map_id _)

/-- Digits are no letters. -/
theorem Digits.caseless {digits : List UInt8} (all : Digits digits) : Caseless digits := by
  intro digit among
  have found := all digit among
  simp only [Byte.isDigit, Bool.and_eq_true, decide_eq_true_eq] at found
  exact UInt8.lt_of_le_of_lt found.2 (by decide)

/-- A sign is no letter. -/
theorem Signs.caseless {signs : List UInt8} {negative : Bool} (signed : Signs signs negative) :
    Caseless signs := by
  cases signed with
  | none => exact fun _ among => absurd among List.not_mem_nil
  | plus | minus => exact List.forall_mem_singleton.mpr (by decide)

/-- Bytes in order are no letters where neither part has any. -/
theorem Caseless.append {before after : List UInt8} (first : Caseless before)
    (second : Caseless after) : Caseless (before ++ after) := by
  intro byte among
  rcases List.mem_append.mp among with among | among
  · exact first byte among
  · exact second byte among

/-- A point before bytes without letters is no letter either. -/
theorem Caseless.point {bytes : List UInt8} (caseless : Caseless bytes) :
    Caseless ('.'.toUInt8 :: bytes) := by
  intro byte among
  rcases List.mem_cons.mp among with rfl | among
  · decide
  · exact caseless byte among

/-- Digits with an optional point are no letters. -/
theorem Mantissa.caseless {bytes whole fraction : List UInt8}
    (valid : Mantissa bytes whole fraction) : Caseless bytes := by
  cases valid with
  | whole digits => exact digits.caseless
  | pointed digits _ further => exact digits.caseless.append further.caseless.point
  | fraction digits => exact digits.caseless.point

/-- Both grammars have the same digits with an optional point. -/
theorem Grammar.number_iff {bytes : List UInt8} :
    Number bytes ↔ ∃ whole fraction, Mantissa bytes whole fraction := by
  constructor
  · rintro (⟨all, some⟩ | ⟨all, some, further⟩ | @⟨whole, fraction, all, further, some⟩)
    · exact ⟨_, _, .whole all some⟩
    · exact ⟨_, _, .pointed all some further⟩
    · by_cases none : whole = []
      · subst none
        exact ⟨_, _, .fraction further some⟩
      · exact ⟨_, _, .pointed all none further⟩
  · rintro ⟨whole, fraction, valid⟩
    cases valid with
    | whole digits some => exact .whole digits some
    | pointed digits some further => exact .before digits some further
    | fraction digits some =>
      have none : Digits [] := fun _ among => absurd among List.not_mem_nil
      exact Number.after none digits some

/-- Both grammars have the same powers. -/
theorem Grammar.exponent_iff {letters : List UInt8} :
    Exponent (letters.map Byte.fold) ↔ ∃ exponent, Power letters exponent := by
  constructor
  · intro valid
    generalize same : letters.map Byte.fold = bytes at valid
    cases valid with
    | none =>
      rw [List.map_eq_nil_iff.mp same]
      exact ⟨_, .none⟩
    | some signed all some =>
      obtain ⟨letter, rest, rfl, marked, same⟩ := List.map_eq_cons_iff.mp same
      have caseless := signed.caseless.append all.caseless
      rw [caseless.map_fold_eq_iff.mp same]
      exact ⟨_, .some marked signed all some⟩
  · rintro ⟨exponent, powered⟩
    cases powered with
    | none => exact .none
    | some marked signed all some =>
      have caseless := signed.caseless.append all.caseless
      rw [List.map_cons, marked, caseless.map_fold_eq_iff.mpr rfl]
      exact .some signed all some

/-- Both grammars have the same bytes without a sign. -/
theorem Grammar.unsigned_iff (negative : Bool) {letters : List UInt8} :
    Unsigned (letters.map Byte.fold) ↔ ∃ numeral, SaysUnsigned negative letters numeral := by
  constructor
  · intro valid
    generalize same : letters.map Byte.fold = bytes at valid
    cases valid with
    | inf => exact ⟨_, .infinity (.inr same)⟩
    | infinity => exact ⟨_, .infinity (.inl same)⟩
    | nan => exact ⟨_, .nan same⟩
    | number number exponent =>
      obtain ⟨digits, power, rfl, digits_same, rfl⟩ := List.map_eq_append_iff.mp same
      obtain ⟨whole, fraction, valid⟩ := number_iff.mp number
      obtain ⟨size, powered⟩ := exponent_iff.mp exponent
      rw [valid.caseless.map_fold_eq_iff.mp digits_same]
      exact ⟨_, .decimal valid powered⟩
  · rintro ⟨numeral, said⟩
    cases said with
    | infinity word =>
      rcases word with word | word
      · exact word ▸ .infinity
      · exact word ▸ .inf
    | nan word => exact word ▸ .nan
    | decimal valid powered =>
      rw [List.map_append, valid.caseless.map_fold_eq_iff.mpr rfl]
      exact .number (number_iff.mpr ⟨_, _, valid⟩) (exponent_iff.mpr ⟨_, powered⟩)

/-- **The literals are what the documented grammar says.** -/
theorem literal_iff_documented {bytes : List UInt8} : Literal bytes ↔ Documented bytes := by
  constructor
  · rintro ⟨numeral, signed, said⟩
    rw [Documented, List.map_append, signed.caseless.map_fold_eq_iff.mpr rfl]
    exact .signed signed ((Grammar.unsigned_iff _).mpr ⟨numeral, said⟩)
  · intro valid
    unfold Documented at valid
    generalize same : bytes.map Byte.fold = small at valid
    obtain ⟨signed, unsigned⟩ := valid
    obtain ⟨signs, letters, rfl, signs_same, rfl⟩ := List.map_eq_append_iff.mp same
    obtain ⟨numeral, said⟩ := (Grammar.unsigned_iff _).mp unsigned
    rw [signed.caseless.map_fold_eq_iff.mp signs_same]
    exact ⟨numeral, .signed signed said⟩

/-! ## The first pass -/

/-- A word in small letters stands at the front in some case. -/
def startsWith (word input : List UInt8) : Bool := (input.take word.length).map Byte.fold == word

/-- How many digits stand at the front. -/
def digitRun (input : List UInt8) : Nat := (input.takeWhile Byte.isDigit).length

/-- How many bytes a sign at the front has. -/
def signLength (input : List UInt8) : Nat :=
  if input.head? = some '+'.toUInt8 ∨ input.head? = some '-'.toUInt8 then 1 else 0

/-- How many bytes a power at the front has. -/
def powerLength (input : List UInt8) : Nat :=
  if input.head? = some 'e'.toUInt8 ∨ input.head? = some 'E'.toUInt8 then
    let signed := 1 + signLength (input.drop 1)
    let digits := digitRun (input.drop signed)
    if 0 < digits then signed + digits else 0
  else 0

/-- How many bytes of digits with an optional point stand at the front, none if there is no digit.
-/
def mantissaLength (input : List UInt8) : Nat :=
  let whole := digitRun input
  let pointed := (input.drop whole).head? = some '.'.toUInt8
  let fraction := if pointed then digitRun (input.drop (whole + 1)) else 0
  if whole = 0 ∧ fraction = 0 then 0 else if pointed then whole + 1 + fraction else whole

/-- How many bytes such digits and a power after them have at the front, none if there is no
digit. -/
def decimalLength (input : List UInt8) : Nat :=
  let digits := mantissaLength input
  if digits = 0 then 0 else digits + powerLength (input.drop digits)

/-- How many bytes a literal without its sign has at the front, none if there is no literal. -/
def unsignedLength (input : List UInt8) : Nat :=
  if startsWith (Byte.ofAscii "infinity") input then 8
  else if startsWith (Byte.ofAscii "inf") input ∨ startsWith (Byte.ofAscii "nan") input then 3
  else decimalLength input

/-- How many bytes a literal at the front has, none if there is no literal. -/
def literalLength (input : List UInt8) : Nat :=
  let signed := signLength input
  let unsigned := unsignedLength (input.drop signed)
  if unsigned = 0 then 0 else signed + unsigned

/-- How many blank bytes stand at the front, and how many bytes a literal after them has. -/
def extent (input : List UInt8) : Nat × Nat :=
  let blanks := (input.takeWhile Byte.isBlank).length
  (blanks, literalLength (input.drop blanks))

/-- The first bytes, as many as said, are what stands before the rest. -/
def Cuts (length : Nat) (input rest : List UInt8) : Prop :=
  length ≤ input.length ∧ rest = input.drop length

/-- Bytes cut off one after the other are cut off together. -/
theorem Cuts.trans {first second : Nat} {input middle rest : List UInt8}
    (before : Cuts first input middle) (after : Cuts second middle rest) :
    Cuts (first + second) input rest := by
  obtain ⟨inside, rfl⟩ := before
  obtain ⟨further, rfl⟩ := after
  rw [List.length_drop] at further
  exact ⟨by omega, List.drop_drop⟩

/-- Nothing is cut off. -/
theorem Cuts.zero (input : List UInt8) : Cuts 0 input input := ⟨Nat.zero_le _, rfl⟩

/-- The bytes at the front of which a test holds are cut off. -/
theorem cuts_takeWhile (test : UInt8 → Bool) (input : List UInt8) :
    Cuts (input.takeWhile test).length input (input.dropWhile test) := by
  refine ⟨(List.takeWhile_prefix test).length_le, ?_⟩
  have cut : (input.takeWhile test ++ input.dropWhile test).drop (input.takeWhile test).length =
      input.dropWhile test := List.drop_left
  rw [List.takeWhile_append_dropWhile] at cut
  exact cut.symm

/-- The digits at the front are cut off. -/
theorem cuts_digits (input : List UInt8) :
    Cuts (digitRun input) input (input.dropWhile Byte.isDigit) := cuts_takeWhile _ input

/-- The run of digits is empty where no digit stands at the front. -/
theorem digitRun_eq_zero_iff {input : List UInt8} :
    digitRun input = 0 ↔ input.takeWhile Byte.isDigit = [] := List.length_eq_zero_iff

/-- A sign is cut off. -/
theorem cuts_sign (input : List UInt8) : Cuts (signLength input) input (sign input).2 := by
  cases input with
  | nil => exact .zero []
  | cons next rest =>
    have first : Cuts 1 (next :: rest) rest := ⟨Nat.succ_le_succ (Nat.zero_le _), rfl⟩
    simp only [signLength, sign, List.head?_cons, Option.some.injEq]
    by_cases minus : next = '-'.toUInt8
    · rw [if_pos (.inr minus), if_pos minus]
      exact first
    · by_cases plus : next = '+'.toUInt8
      · rw [if_pos (.inl plus), if_neg minus, if_pos plus]
        exact first
      · rw [if_neg (not_or.mpr ⟨plus, minus⟩), if_neg minus, if_neg plus]
        exact .zero _

/-- A word that was read is found, and cut off. -/
theorem cuts_word {word : String} {input rest : List UInt8}
    (small : (Byte.ofAscii word).map Byte.fold = Byte.ofAscii word)
    (read : afterWord? (Byte.ofAscii word) input = some rest) :
    startsWith (Byte.ofAscii word) input = true ∧ Cuts (Byte.ofAscii word).length input rest := by
  obtain ⟨letters, cased, rfl⟩ := (afterWord?_ofAscii_iff small).mp read
  rw [startsWith, ← cased.length_eq, List.take_left, beq_iff_eq]
  refine ⟨cased, ?_, List.drop_left.symm⟩
  rw [List.length_append]
  exact Nat.le_add_right _ _

/-- A word that was not read is not found. -/
theorem startsWith_of_none {word : String} {input : List UInt8}
    (small : (Byte.ofAscii word).map Byte.fold = Byte.ofAscii word)
    (unread : afterWord? (Byte.ofAscii word) input = none) :
    startsWith (Byte.ofAscii word) input = false := by
  refine Bool.eq_false_iff.mpr fun found => ?_
  have cased : Cased word (input.take (Byte.ofAscii word).length) := beq_iff_eq.mp found
  have read := (afterWord?_ofAscii_iff small).mpr
    ⟨_, cased, (List.take_append_drop (Byte.ofAscii word).length input).symm⟩
  cases unread.symm.trans read

/-- The letter of a power is one of two. -/
theorem fold_eq_e_iff {byte : UInt8} :
    Byte.fold byte = 'e'.toUInt8 ↔ byte = 'e'.toUInt8 ∨ byte = 'E'.toUInt8 := by
  have small : 'e'.toUInt8 = 101 := by decide
  have capital : 'E'.toUInt8 = 69 := by decide
  unfold Byte.fold
  rw [small, capital]
  grind

/-- A power is cut off. -/
theorem cuts_power (input : List UInt8) : Cuts (powerLength input) input (power input).2 := by
  cases input with
  | nil => exact .zero []
  | cons next rest =>
    have first : Cuts 1 (next :: rest) rest := ⟨Nat.succ_le_succ (Nat.zero_le _), rfl⟩
    have signed := first.trans (cuts_sign rest)
    have marked : CaseRule.folded.equal 'e'.toUInt8 next = true ↔
        next = 'e'.toUInt8 ∨ next = 'E'.toUInt8 := by
      rw [CaseRule.equal_iff, ← fold_eq_e_iff, eq_comm]
      rfl
    have digits := cuts_digits (sign rest).2
    simp only [powerLength, power, List.head?_cons, Option.some.injEq, List.drop_succ_cons,
      List.drop_zero, ← signed.2, marked]
    by_cases letter : next = 'e'.toUInt8 ∨ next = 'E'.toUInt8
    · by_cases none : (sign rest).2.takeWhile Byte.isDigit = []
      · have zero : ¬0 < digitRun (sign rest).2 := fun positive =>
          Nat.ne_of_gt positive (digitRun_eq_zero_iff.mpr none)
        rw [if_pos letter, if_neg zero, if_neg fun found => found.2 none]
        exact .zero _
      · have positive : 0 < digitRun (sign rest).2 := Nat.pos_of_ne_zero fun zero =>
          none (digitRun_eq_zero_iff.mp zero)
        rw [if_pos letter, if_pos positive, if_pos ⟨letter, none⟩]
        exact signed.trans digits
    · rw [if_neg letter, if_neg fun found => letter found.1]
      exact .zero _

/-- A reading has a length: that of what it reads, or none where it reads nothing. -/
def Measures (length : Nat) (input : List UInt8) : Option (Numeral × List UInt8) → Prop
  | none => length = 0
  | some (_, rest) => 0 < length ∧ Cuts length input rest

/-- The length of digits with an optional point is that of what is read, where there is a digit. -/
theorem mantissaLength_spec (input : List UInt8) :
    if (mantissa input).1.1 = [] ∧ (mantissa input).1.2 = [] then mantissaLength input = 0
    else 0 < mantissaLength input ∧ Cuts (mantissaLength input) input (mantissa input).2 := by
  have before := cuts_digits input
  simp only [mantissa, mantissaLength, ← before.2]
  by_cases pointed : (input.dropWhile Byte.isDigit).head? = some '.'.toUInt8
  · obtain ⟨after, left⟩ := List.head?_eq_some_iff.mp pointed
    have point : Cuts 1 (input.dropWhile Byte.isDigit) after := by
      rw [left]
      exact ⟨Nat.succ_le_succ (Nat.zero_le _), rfl⟩
    have further := before.trans point
    rw [left, ← further.2]
    simp only [List.head?_cons, ↓reduceIte, digitRun_eq_zero_iff]
    by_cases none : input.takeWhile Byte.isDigit = [] ∧ after.takeWhile Byte.isDigit = []
    · have unread : fraction (input.takeWhile Byte.isDigit) ('.'.toUInt8 :: after) =
          ([], '.'.toUInt8 :: after) := by
        rw [fraction, if_neg fun found => found.2 none]
      rw [unread, if_pos ⟨none.1, rfl⟩, if_pos none]
    · have read : fraction (input.takeWhile Byte.isDigit) ('.'.toUInt8 :: after) =
          (after.takeWhile Byte.isDigit, after.dropWhile Byte.isDigit) := by
        rw [fraction, if_pos ⟨rfl, none⟩]
      rw [read, if_neg none, if_neg none]
      exact ⟨by omega, further.trans (cuts_digits after)⟩
  · have unread : fraction (input.takeWhile Byte.isDigit) (input.dropWhile Byte.isDigit) =
        ([], input.dropWhile Byte.isDigit) := by
      cases left : input.dropWhile Byte.isDigit with
      | nil => rfl
      | cons next after =>
        rw [left, List.head?_cons, Option.some.injEq] at pointed
        rw [fraction, if_neg fun found => pointed found.1]
    rw [unread]
    simp only [if_neg pointed, and_true]
    by_cases none : input.takeWhile Byte.isDigit = []
    · rw [if_pos none, if_pos (digitRun_eq_zero_iff.mpr none)]
    · have some : digitRun input ≠ 0 := fun zero => none (digitRun_eq_zero_iff.mp zero)
      rw [if_neg none, if_neg some]
      exact ⟨Nat.pos_of_ne_zero some, before⟩

/-- The length of a decimal is that of what is read. -/
theorem measures_decimal (negative : Bool) (input : List UInt8) :
    Measures (decimalLength input) input (decimal? negative input) := by
  have digits := mantissaLength_spec input
  rw [decimal?_eq]
  cases read : mantissa input with
  | mk parts rest =>
    rw [read] at digits
    dsimp only [decimalLength] at digits ⊢
    split at digits <;> rename_i some
    · rw [if_pos some]
      exact if_pos digits
    · have ⟨positive, cut⟩ := digits
      rw [if_neg some, if_neg (Nat.ne_of_gt positive), ← cut.2]
      exact ⟨Nat.lt_of_lt_of_le positive (Nat.le_add_right _ _), cut.trans (cuts_power rest)⟩

/-- The length of a literal without its sign is that of what is read. -/
theorem measures_unsigned (negative : Bool) (input : List UInt8) :
    Measures (unsignedLength input) input (unsigned? negative input) := by
  unfold unsigned? unsignedLength
  cases infinity : afterWord? (Byte.ofAscii "infinity") input with
  | some rest =>
    have ⟨found, cut⟩ := cuts_word (by decide) infinity
    rw [if_pos found]
    exact ⟨by decide, cut⟩
  | none =>
    rw [if_neg (Bool.eq_false_iff.mp (startsWith_of_none (by decide) infinity))]
    cases inf : afterWord? (Byte.ofAscii "inf") input with
    | some rest =>
      have ⟨found, cut⟩ := cuts_word (by decide) inf
      rw [if_pos (.inl found)]
      exact ⟨by decide, cut⟩
    | none =>
      have no_inf := Bool.eq_false_iff.mp (startsWith_of_none (by decide) inf)
      cases nan : afterWord? (Byte.ofAscii "nan") input with
      | some rest =>
        have ⟨found, cut⟩ := cuts_word (by decide) nan
        rw [if_pos (.inr found)]
        exact ⟨by decide, cut⟩
      | none =>
        have no_nan := Bool.eq_false_iff.mp (startsWith_of_none (by decide) nan)
        rw [if_neg (not_or.mpr ⟨no_inf, no_nan⟩)]
        exact measures_decimal negative input

/-- **The first pass finds the literal that is read,** and none where none is. -/
theorem measures_literal (input : List UInt8) :
    Measures (literalLength input) input (read? input) := by
  have signed := cuts_sign input
  have unsigned := measures_unsigned (sign input).1 (sign input).2
  change Measures _ input (unsigned? (sign input).1 (sign input).2)
  unfold literalLength
  dsimp only
  rw [← signed.2]
  cases read : unsigned? (sign input).1 (sign input).2 with
  | none =>
    rw [read] at unsigned
    exact if_pos unsigned
  | some found =>
    rw [read] at unsigned
    have ⟨positive, cut⟩ := unsigned
    rw [if_neg (Nat.ne_of_gt positive)]
    exact ⟨Nat.lt_of_lt_of_le positive (Nat.le_add_left _ _), signed.trans cut⟩

/-! ## The second pass -/

/-- All bytes are those of ASCII. -/
def Ascii (bytes : List UInt8) : Prop := ∀ byte ∈ bytes, byte < 0x80

/-- Bytes that pass the test for ASCII one by one are of ASCII. -/
theorem ascii_of_all {bytes : List UInt8} (all : bytes.all (· < 0x80) = true) : Ascii bytes :=
  fun byte among => of_decide_eq_true (List.all_eq_true.mp all byte among)

/-- Bytes in order are of ASCII where both parts are. -/
theorem Ascii.append {before after : List UInt8} (first : Ascii before) (second : Ascii after) :
    Ascii (before ++ after) := by
  intro byte among
  rcases List.mem_append.mp among with among | among
  · exact first byte among
  · exact second byte among

/-- Bytes that are no letters are of ASCII. -/
theorem Caseless.ascii {bytes : List UInt8} (caseless : Caseless bytes) : Ascii bytes :=
  fun byte among => UInt8.lt_trans (caseless byte among) (by decide)

/-- Bytes that are of ASCII in small letters are so in any case. -/
theorem ascii_of_map_fold {bytes : List UInt8} (small : Ascii (bytes.map Byte.fold)) :
    Ascii bytes := by
  intro byte among
  have below := small _ (List.mem_map_of_mem among)
  unfold Byte.fold at below
  split at below <;> rename_i capital
  · exact UInt8.lt_of_le_of_lt capital.2 (by decide)
  · exact below

/-- What the documented grammar says is of ASCII. -/
theorem Grammar.Signed.ascii {bytes : List UInt8} (valid : Signed bytes) : Ascii bytes := by
  obtain ⟨signed, unsigned⟩ := valid
  refine signed.caseless.ascii.append ?_
  cases unsigned with
  | inf | infinity | nan => exact ascii_of_all (by decide)
  | number number exponent =>
    obtain ⟨_, _, digits⟩ := number_iff.mp number
    refine digits.caseless.ascii.append ?_
    cases exponent with
    | none => exact fun _ among => absurd among List.not_mem_nil
    | some signed all =>
      have letter : Ascii ['e'.toUInt8] := ascii_of_all (by decide)
      exact letter.append (signed.caseless.append all.caseless).ascii

/-- Bytes of ASCII are text. -/
theorem Ascii.exists_text {bytes : List UInt8} (ascii : Ascii bytes) :
    ∃ text, textOf bytes = .ok text ∧ Utf8.encode text = bytes := by
  have chars : ∀ index, ∃ chars, Utf8.charsFrom index none bytes = .ok chars := by
    induction bytes with
    | nil => exact fun index => ⟨[], rfl⟩
    | cons lead rest ih =>
      intro index
      obtain ⟨chars, read⟩ := ih (fun byte among => ascii byte (List.mem_cons_of_mem _ among))
        (index + 1)
      rw [Utf8.charsFrom, if_pos (ascii lead List.mem_cons_self), read]
      exact ⟨_, rfl⟩
  obtain ⟨chars, read⟩ := chars 0
  have decoded : textOf bytes = .ok (String.ofList chars) := by
    rw [textOf, Utf8.decode, read]
    rfl
  exact ⟨_, decoded, (textOf_eq_ok_iff.mp decoded).symm⟩

/-- A literal is text. -/
theorem Literal.exists_text {bytes : List UInt8} (literal : Literal bytes) :
    ∃ text, textOf bytes = .ok text ∧ Utf8.encode text = bytes :=
  (ascii_of_map_fold (literal_iff_documented.mp literal).ascii).exists_text

/-- The number that a text says as a whole, none where it says none. -/
def ofText? (text : String) : Option Binary64 :=
  match read? (Utf8.encode text) with
  | some (numeral, []) => some numeral.value
  | _ => none

/-- The text of a literal says the number that the literal says. -/
theorem Says.ofText?_eq {text : String} {numeral : Numeral}
    (said : Says (Utf8.encode text) numeral) : ofText? text = some numeral.value := by
  rw [ofText?, said.read?_eq]

/-- The texts that say a number are those that the documented grammar says. -/
theorem ofText?_isSome_iff (text : String) :
    (ofText? text).isSome = true ↔ Documented (Utf8.encode text) := by
  rw [← literal_iff_documented]
  constructor
  · intro some
    unfold ofText? at some
    split at some
    · rename_i numeral read
      obtain ⟨literal, said, parts⟩ := exists_says read
      rw [parts, List.append_nil]
      exact ⟨numeral, said⟩
    · cases some
  · rintro ⟨numeral, said⟩
    rw [said.ofText?_eq]
    rfl

/-! ## Both passes -/

/-- Blank bytes and a numeral, read in two passes, of which the second reads a text. -/
def twoPass (parse : String → Option Binary64) : Scan Binary64 := fun input =>
  let (blanks, length) := extent input
  if length = 0 ∨ input.length < blanks + length then ⟨.error .mismatch, input, []⟩
  else
    match textOf ((input.drop blanks).take length) with
    | .error fault => ⟨.error fault, input, []⟩
    | .ok text =>
      match parse text with
      | none => ⟨.error .mismatch, input, []⟩
      | some value => ⟨.ok value, input.drop (blanks + length), []⟩

/-- The first pass finds as many bytes as the longest literal has. -/
theorem Longest.literalLength_eq {literal input : List UInt8} (longest : Longest literal input) :
    0 < literal.length ∧ literalLength input = literal.length ∧
      Cuts literal.length input (input.drop literal.length) := by
  have measured := measures_literal input
  cases read : read? input with
  | none => exact absurd longest.said (read?_eq_none_iff.mp read literal longest.front)
  | some found =>
    obtain ⟨also, longest_also, -, parts⟩ := read?_eq_some read
    obtain rfl := longest_also.unique longest
    rw [read] at measured
    have ⟨positive, inside, left⟩ := measured
    have counted := congrArg List.length parts
    have left_length := congrArg List.length left
    rw [List.length_append] at counted
    rw [List.length_drop] at left_length
    have same : literalLength input = also.length := by omega
    exact ⟨same ▸ positive, same, same ▸ inside, rfl⟩

/-- Two passes read nothing where no literal stands after the blank bytes. -/
theorem twoPass_of_none (parse : String → Option Binary64) {input : List UInt8}
    (unsaid : ∀ taken, taken <+: input.dropWhile Byte.isBlank → ¬Literal taken) :
    twoPass parse input = ⟨.error .mismatch, input, []⟩ := by
  have measured := measures_literal (input.dropWhile Byte.isBlank)
  rw [read?_eq_none_iff.mpr unsaid] at measured
  have none : literalLength (input.dropWhile Byte.isBlank) = 0 := measured
  rw [twoPass, extent, ← (cuts_takeWhile Byte.isBlank input).2, none]
  rfl

/-- **Two passes read the longest literal,** whichever reading of texts the second one is, and find
the number that it makes of the text of that literal. -/
theorem twoPass_of_longest {parse : String → Option Binary64}
    (documented : ∀ text, (parse text).isSome = true ↔ Documented (Utf8.encode text))
    {input literal : List UInt8} (longest : Longest literal (input.dropWhile Byte.isBlank)) :
    ∃ text value, Utf8.encode text = literal ∧ parse text = some value ∧
      twoPass parse input =
        ⟨.ok value, (input.dropWhile Byte.isBlank).drop literal.length, []⟩ := by
  have blanks := cuts_takeWhile Byte.isBlank input
  obtain ⟨text, decoded, spelled⟩ := longest.said.exists_text
  have accepted : (parse text).isSome = true := by
    rw [documented, spelled, ← literal_iff_documented]
    exact longest.said
  obtain ⟨value, parsed⟩ := Option.isSome_iff_exists.mp accepted
  have ⟨positive, found, inside⟩ := longest.literalLength_eq
  have cut := blanks.trans inside
  have fits : ¬(literal.length = 0 ∨
      input.length < (input.takeWhile Byte.isBlank).length + literal.length) := by
    have bounded := cut.1
    omega
  have taken : (input.dropWhile Byte.isBlank).take literal.length = literal :=
    (List.prefix_iff_eq_take.mp longest.front).symm
  refine ⟨text, value, spelled, parsed, ?_⟩
  rw [twoPass, extent, ← blanks.2, found]
  dsimp only
  rw [if_neg fits, ← blanks.2, taken, decoded, ← cut.2]
  simp only [parsed]

/-- Reading in one pass is reading in two of which the second reads texts as numerals. -/
theorem scan_eq_twoPass : scan = twoPass ofText? := by
  funext input
  unfold scan
  cases read : read? (input.dropWhile Byte.isBlank) with
  | none => exact (twoPass_of_none _ (read?_eq_none_iff.mp read)).symm
  | some found =>
    obtain ⟨literal, longest, said, parts⟩ := read?_eq_some read
    obtain ⟨text, value, rfl, parsed, came⟩ := twoPass_of_longest ofText?_isSome_iff longest
    rw [said.ofText?_eq] at parsed
    cases parsed
    rw [came, parts, List.drop_left]

end WireScan.Numeral

namespace WireScan.Session

/-- A step reads the longest literal that stands after the blank bytes ahead, as the number that a
reading of texts makes of that literal alone, or where none stands there it is refused and changes
nothing. -/
structure ReadsLongest (parse : String → Option Binary64) (session : Session) (step : Step) :
    Prop where
  /-- Where no literal stands after the blank bytes nothing is read. -/
  refused : (∀ taken, taken <+: session.tape.ahead.dropWhile Byte.isBlank →
    ¬Numeral.Literal taken) → step = session.answering (.fault .mismatch)
  /-- Where one does the blank bytes are read, and the longest. -/
  read : (∃ taken, taken <+: session.tape.ahead.dropWhile Byte.isBlank ∧ Numeral.Literal taken) →
    ∃ literal text value,
      Numeral.Longest literal (session.tape.ahead.dropWhile Byte.isBlank) ∧
        Utf8.encode text = literal ∧ parse text = some value ∧
          step = ⟨.number value, session.readTo (session.window.pos +
            ((session.tape.ahead.takeWhile Byte.isBlank).length + literal.length)), []⟩

variable {session : Session}

/-- Two passes read the longest literal. -/
theorem twoPass_readsLongest (sound : session.tape.Sound) {parse : String → Option Binary64}
    (documented : ∀ text, (parse text).isSome = true ↔ Numeral.Documented (Utf8.encode text)) :
    session.ReadsLongest parse
      (session.passing (session.tape.scan (Numeral.twoPass parse)) .number) := by
  have step : ∀ outcome, Numeral.twoPass parse session.tape.ahead = outcome →
      session.passing (session.tape.scan (Numeral.twoPass parse)) .number =
        ⟨.ofResult outcome.result .number, session.readTo (session.window.pos +
          (session.tape.ahead.length - outcome.rest.length)), outcome.notes⟩ := by
    rintro _ rfl
    rw [← passing_session sound (Numeral.twoPass parse) .number]
    rfl
  constructor
  · intro unsaid
    rw [step _ (Numeral.twoPass_of_none parse unsaid), Nat.sub_self, Nat.add_zero, readTo_self]
    rfl
  · rintro ⟨taken, front, said⟩
    obtain ⟨literal, longest⟩ := Numeral.exists_longest front said
    obtain ⟨text, value, spelled, parsed, came⟩ := Numeral.twoPass_of_longest documented longest
    refine ⟨literal, text, value, longest, spelled, parsed, ?_⟩
    have parts := congrArg List.length
      (List.takeWhile_append_dropWhile (p := Byte.isBlank) (l := session.tape.ahead))
    have inside := longest.front.length_le
    have passed : session.tape.ahead.length -
        ((session.tape.ahead.dropWhile Byte.isBlank).drop literal.length).length =
          (session.tape.ahead.takeWhile Byte.isBlank).length + literal.length := by
      rw [List.length_append] at parts
      rw [List.length_drop]
      omega
    rw [step _ came, passed]
    rfl

/-- **A numeral is read as the longest literal after the blank bytes, or nothing is read.** On every
reached session, the action that reads a numeral reads the blank bytes ahead and the longest literal
after them, and answers with the number that those bytes alone say; where no literal stands after
the blank bytes it answers that they are not what was asked for, and changes nothing. The same holds
of two passes, of which the first finds the literal and the second is given its text, whichever
reading of texts the second one is, as long as it accepts what the documented grammar says and
nothing else: the literal is always text and is never rejected. -/
theorem reads_longest_literal (reached : session.Reached) {parse : String → Option Binary64}
    (documented : ∀ text, (parse text).isSome = true ↔ Numeral.Documented (Utf8.encode text)) :
    session.ReadsLongest parse
        (session.passing (session.tape.scan (Numeral.twoPass parse)) .number) ∧
      session.ReadsLongest Numeral.ofText? (Action.numeral.perform session) ∧
        ∀ text, (Numeral.ofText? text).isSome = true ↔ Numeral.Documented (Utf8.encode text) := by
  have sound := reached.sound.buffer.tape
  have performed : Action.numeral.perform session =
      session.passing (session.tape.scan (Numeral.twoPass Numeral.ofText?)) .number := by
    rw [← Numeral.scan_eq_twoPass]
    rfl
  rw [performed]
  exact ⟨twoPass_readsLongest sound documented,
    twoPass_readsLongest sound Numeral.ofText?_isSome_iff, Numeral.ofText?_isSome_iff⟩

/-- After two blank bytes a minus, a point and a digit are read; the letter and the sign of a power
without digits are not. -/
theorem reads_longest_literal_unfinished_power :
    let session := ofBuffer (.lent (.ofBytes (Byte.ofAscii " \t-.5e+x")))
    let rest := session.tape.ahead.dropWhile Byte.isBlank
    let step := Action.numeral.perform session
    step.answer = .number (.signed true 0x3FE0000000000000) ∧ step.session = session.readTo 5 ∧
      Numeral.Longest (Byte.ofAscii "-.5") rest := by
  intro session rest step
  have reached : session.Reached :=
    ⟨.lent (.ofBytes (Byte.ofAscii " \t-.5e+x")), [], .lent _ (by decide +kernel), trivial, rfl⟩
  have said : Numeral.read? (Byte.ofAscii "-.5") = some (.decimal true 5 (-1), []) := by
    decide +kernel
  obtain ⟨spelled, said, parts⟩ := Numeral.exists_says said
  rw [List.append_nil] at parts
  have literal : Numeral.Literal (Byte.ofAscii "-.5") := ⟨_, parts ▸ said⟩
  have front : Byte.ofAscii "-.5" <+: rest := by decide +kernel
  have ⟨_, performed, _⟩ := reads_longest_literal reached Numeral.ofText?_isSome_iff
  obtain ⟨longest, text, value, valid, _, _, came⟩ := performed.read ⟨_, front, literal⟩
  -- Reading stands three bytes after the blank ones, so the longest literal has three bytes.
  have reading : step.session = session.readTo 5 := by decide +kernel
  have blanks : (session.tape.ahead.takeWhile Byte.isBlank).length = 2 := by decide +kernel
  have start : session.window.pos = 0 := rfl
  have length : longest.length = 3 := by
    have moved := congrArg (·.window.pos) ((congrArg Step.session came).symm.trans reading)
    simp only [window_readTo, blanks, start] at moved
    omega
  have same : longest = Byte.ofAscii "-.5" := by
    have within := List.prefix_of_prefix_length_le valid.front front (by rw [length]; decide)
    exact within.eq_of_length length
  exact ⟨by decide +kernel, reading, same ▸ valid⟩

end WireScan.Session
