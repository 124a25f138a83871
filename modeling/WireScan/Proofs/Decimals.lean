import WireScan.Proofs.Literals
import WireScan.Proofs.Progress
import WireScan.Proofs.Rounding
import Mathlib.Algebra.Order.Field.Power
import Mathlib.Data.Nat.Digits.Defs

/-!
# The values of decimals

A literal in digits denotes a rational number (`Numeral.Decimal.exact`), and what is read of it is
that number rounded, however many digits it has, with the sign of the literal
(`Session.numeral_rounds`). So literals that denote one number are read as one value, and larger
numbers are read as no smaller values. One thing is left out of account: of a power of ten that is
large already further digits do not count, and the number rounded is the one that the digits denote
when they are passed over (`Numeral.Decimal.counted`). That is the same number, or one that rounds
to the same field, unless such a power meets more than sixty-five thousand other digits
(`Numeral.Decimal.Moderate`), as it can (`Session.numeral_misses_long_power`).
-/
namespace WireScan

/-- All of given bytes lies ahead at first. -/
theorem Tape.ahead_ofBytes (data : List UInt8) : (Tape.ofBytes data).ahead = data := by
  rw [ahead_eq (ofBytes_valid data)]
  simp [ofBytes, Window.spanning]

namespace Numeral

/-! ## Digits -/

/-- The number that digits denote, the highest first. -/
def denoted (digits : List UInt8) : Nat := Nat.ofDigits 10 (digits.map digitValue).reverse

/-- One more digit makes ten times the number and that digit. -/
theorem denoted_concat (digits : List UInt8) (digit : UInt8) :
    denoted (digits ++ [digit]) = 10 * denoted digits + digitValue digit := by
  rw [denoted, List.map_append, List.reverse_append]
  exact Nat.ofDigits_cons.trans (Nat.add_comm _ _)

/-- Digits spell the number that they denote. -/
theorem spelled_eq_denoted (digits : List UInt8) : spelled digits = denoted digits := by
  induction digits using List.reverseRecOn with
  | nil => rfl
  | append_singleton digits digit ih => rw [spelled_concat, denoted_concat, ih]

/-- Digits denote less than the power of ten after as many places. -/
theorem Digits.denoted_lt {digits : List UInt8} (all : Digits digits) :
    denoted digits < 10 ^ digits.length := by
  have small : ∀ value ∈ (digits.map digitValue).reverse, value < 10 := by
    intro value among
    obtain ⟨digit, inside, rfl⟩ := List.mem_map.mp (List.mem_reverse.mp among)
    have ranged := all digit inside
    unfold Byte.isDigit at ranged
    unfold digitValue
    simp only [Bool.and_eq_true, decide_eq_true_eq, UInt8.le_iff_toNat_le] at ranged
    have most : digit.toNat ≤ 57 := ranged.2
    omega
  have bound := Nat.ofDigits_lt_base_pow_length (by decide : 1 < 10) small
  rw [List.length_reverse, List.length_map] at bound
  exact bound

/-- Digits of a power of ten that spell less than ten times the size that is large all count. -/
theorem powerSize_eq_denoted {digits : List UInt8} (short : denoted digits < 10 * largeSize) :
    powerSize digits = denoted digits := by
  induction digits using List.reverseRecOn with
  | nil => rfl
  | append_singleton digits digit ih =>
    rw [denoted_concat] at short ⊢
    have small : denoted digits < largeSize := by omega
    have same := ih (by omega)
    rw [powerSize, List.foldl_append] at *
    rw [same]
    exact if_pos small

/-- Digits of a power of ten that do not all count spell a large one. -/
theorem le_powerSize {digits : List UInt8} (long : largeSize ≤ denoted digits) :
    largeSize ≤ powerSize digits := by
  refine Nat.le_of_not_lt fun small => ?_
  rw [powerSize_eq_spelled small, spelled_eq_denoted] at small
  exact Nat.not_lt.mpr long small

/-- The parts of a literal in digits. -/
structure Decimal where
  /-- It has a minus. -/
  negative : Bool
  /-- The digits before the point. -/
  whole : List UInt8
  /-- The digits after the point. -/
  fraction : List UInt8
  /-- The power of ten has a minus. -/
  lowers : Bool
  /-- The digits of the power of ten. -/
  power : List UInt8
deriving DecidableEq, Repr

namespace Decimal

/-- A literal is written in digits, of these parts. -/
inductive Written : List UInt8 → Decimal → Prop
  /-- Without a power of ten. -/
  | plain {signs mantissa whole fraction : List UInt8} {negative : Bool}
    (signed : Signs signs negative) (digits : Mantissa mantissa whole fraction) :
    Written (signs ++ mantissa) ⟨negative, whole, fraction, false, []⟩
  /-- With a power of ten. -/
  | powered {signs mantissa whole fraction letters power : List UInt8} {letter : UInt8}
    {negative lowers : Bool} (signed : Signs signs negative)
    (digits : Mantissa mantissa whole fraction) (marked : Byte.fold letter = 'e'.toUInt8)
    (turned : Signs letters lowers) (all : Digits power) (some : power ≠ []) :
    Written (signs ++ (mantissa ++ letter :: (letters ++ power)))
      ⟨negative, whole, fraction, lowers, power⟩

/-- The digits before and after the point as one number. -/
def digits (decimal : Decimal) : Nat := denoted (decimal.whole ++ decimal.fraction)

/-- The exponent of ten where the power of ten has a size. -/
def exponent (size : Nat) (decimal : Decimal) : ℤ :=
  (if decimal.lowers then -(size : ℤ) else size) - decimal.fraction.length

/-- The number without its sign where the power of ten has a size. -/
def magnitude (size : Nat) (decimal : Decimal) : ℚ :=
  decimal.digits * 10 ^ decimal.exponent size

/-- The number that is denoted, without its sign. -/
def exact (decimal : Decimal) : ℚ := decimal.magnitude (denoted decimal.power)

/-- The number that is denoted. -/
def number (decimal : Decimal) : ℚ := if decimal.negative then -decimal.exact else decimal.exact

/-- The number that is counted, without its sign: of a power of ten that is large already no further
digits count. -/
def counted (decimal : Decimal) : ℚ := decimal.magnitude (powerSize decimal.power)

/-- So many digits bring no large power of ten back among the numbers that do not round to zero or
to infinity. -/
def fewDigits : Nat := largeSize - 324

/-- All digits of the power of ten count, or there are few others. -/
def Moderate (decimal : Decimal) : Prop :=
  denoted decimal.power < 10 * largeSize ∨
    decimal.whole.length + decimal.fraction.length ≤ fewDigits

instance (decimal : Decimal) : Decidable decimal.Moderate := inferInstanceAs (Decidable (_ ∨ _))

/-- The digits before and after the point are digits. -/
theorem Written.digits {literal : List UInt8} {decimal : Decimal}
    (written : Written literal decimal) : Digits (decimal.whole ++ decimal.fraction) := by
  have joined : ∀ {bytes whole fraction : List UInt8}, Mantissa bytes whole fraction →
      Digits (whole ++ fraction) := by
    intro bytes whole fraction mantissa digit among
    cases mantissa with
    | whole digits some =>
      rw [List.append_nil] at among
      exact digits digit among
    | pointed digits some further =>
      exact (List.mem_append.mp among).elim (digits digit) (further digit)
    | fraction digits some => exact digits digit among
  cases written with
  | plain signed mantissa => exact joined mantissa
  | powered signed mantissa => exact joined mantissa

/-- What is written in digits says the number that is counted. -/
theorem Written.meaning {literal : List UInt8} {decimal : Decimal}
    (written : Written literal decimal) :
    Says literal
      (.decimal decimal.negative decimal.digits (decimal.exponent (powerSize decimal.power))) := by
  cases written with
  | @plain signs mantissa whole fraction negative signed digits =>
    have said := Says.signed signed (.decimal digits .none)
    rw [List.append_nil, spelled_eq_denoted] at said
    exact said
  | powered signed digits marked turned all some =>
    have said := Says.signed signed (.decimal digits (.some marked turned all some))
    rw [spelled_eq_denoted] at said
    exact said

variable {decimal : Decimal}

/-- The number without its sign is not negative. -/
theorem magnitude_nonneg (size : Nat) (decimal : Decimal) : 0 ≤ decimal.magnitude size := by
  unfold magnitude
  positivity

/-- So many powers of ten are more than the powers of two between one and the least half unit. -/
theorem two_pow_le_tens : (2 ^ 1075 : ℚ) ≤ 10 ^ 324 := by
  have counted : 2 ^ 1075 ≤ 10 ^ 324 := by decide +kernel
  exact_mod_cast counted

/-- A large power of ten that few places come with makes a number that rounds to infinity. -/
theorem le_magnitude_of_large {size : Nat} (large : largeSize ≤ size)
    (few : decimal.fraction.length ≤ fewDigits) (some : decimal.digits ≠ 0)
    (raises : decimal.lowers = false) : 2 ^ 1024 - 2 ^ 970 ≤ decimal.magnitude size := by
  have ten : (1 : ℚ) ≤ 10 := by norm_num
  have one : (1 : ℚ) ≤ decimal.digits := Nat.one_le_cast.mpr (Nat.pos_of_ne_zero some)
  have gap : (0 : ℚ) ≤ 2 ^ 970 := by positivity
  unfold fewDigits largeSize at few
  unfold largeSize at large
  have moved : decimal.exponent size = (size - decimal.fraction.length : Nat) := by
    simp only [exponent, raises, Bool.false_eq_true, if_false]
    omega
  have enough : 324 ≤ size - decimal.fraction.length := by omega
  rw [magnitude, moved, zpow_natCast]
  calc (2 : ℚ) ^ 1024 - 2 ^ 970
      ≤ 2 ^ 1024 := sub_le_self _ gap
    _ ≤ 2 ^ 1075 := pow_le_pow_right₀ one_le_two (by decide)
    _ ≤ 10 ^ 324 := two_pow_le_tens
    _ ≤ 10 ^ (size - decimal.fraction.length) := pow_le_pow_right₀ ten enough
    _ ≤ decimal.digits * 10 ^ (size - decimal.fraction.length) :=
      le_mul_of_one_le_left (by positivity) one

/-- With a minus it makes one that rounds to zero, where few digits stand before the point. -/
theorem magnitude_le_of_large {size : Nat} (large : largeSize ≤ size)
    (few : decimal.whole.length ≤ fewDigits)
    (all : Digits (decimal.whole ++ decimal.fraction)) (lowers : decimal.lowers = true) :
    decimal.magnitude size ≤ 1 / 2 ^ 1075 := by
  have ten : (1 : ℚ) ≤ 10 := by norm_num
  unfold fewDigits largeSize at few
  unfold largeSize at large
  have moved : decimal.exponent size = -(size + decimal.fraction.length : Nat) := by
    simp only [exponent, lowers, if_true]
    omega
  have places : (decimal.whole ++ decimal.fraction).length + 324 ≤
      size + decimal.fraction.length := by
    rw [List.length_append]
    omega
  have bounded : (decimal.digits : ℚ) ≤ 10 ^ (decimal.whole ++ decimal.fraction).length := by
    exact_mod_cast all.denoted_lt.le
  rw [magnitude, moved, zpow_neg, zpow_natCast, ← div_eq_mul_inv,
    div_le_div_iff₀ (by positivity) (by positivity), one_mul]
  calc (decimal.digits : ℚ) * 2 ^ 1075
      ≤ 10 ^ (decimal.whole ++ decimal.fraction).length * 10 ^ 324 :=
        mul_le_mul bounded two_pow_le_tens (by positivity) (by positivity)
    _ = 10 ^ ((decimal.whole ++ decimal.fraction).length + 324) := (pow_add _ _ _).symm
    _ ≤ 10 ^ (size + decimal.fraction.length) := pow_le_pow_right₀ ten places

/-- The number that is counted rounds to the same field as the one that is denoted, where all digits
count or there are few others. -/
theorem Moderate.rounds {literal : List UInt8} (moderate : decimal.Moderate)
    (written : Written literal decimal) {field : Nat}
    (rounds : Binary64.Rounds decimal.counted field) : Binary64.Rounds decimal.exact field := by
  unfold exact counted at *
  by_cases short : denoted decimal.power < 10 * largeSize
  · rw [powerSize_eq_denoted short] at rounds
    exact rounds
  · by_cases none : decimal.digits = 0
    · rw [magnitude, none, Nat.cast_zero, zero_mul] at rounds ⊢
      exact rounds
    · have few := moderate.resolve_left short
      have before : decimal.whole.length ≤ fewDigits := Nat.le_trans (Nat.le_add_right _ _) few
      have after : decimal.fraction.length ≤ fewDigits := Nat.le_trans (Nat.le_add_left _ _) few
      have long : largeSize ≤ denoted decimal.power := by omega
      have counted := le_powerSize long
      cases lowers : decimal.lowers with
      | false =>
        rw [rounds.overflow.mpr (le_magnitude_of_large counted after none lowers)]
        exact Binary64.rounds_infinite (le_magnitude_of_large long after none lowers)
      | true =>
        rw [rounds.underflow.mpr (magnitude_le_of_large counted before written.digits lowers)]
        exact Binary64.rounds_zero (magnitude_nonneg _ _)
          (magnitude_le_of_large long before written.digits lowers)

/-! ## Many places and a power of ten -/

/-- A tenth to some power and a power of ten: after the point some zeros and a one. -/
def shifted (zeros : Nat) (power : List UInt8) : Decimal :=
  ⟨false, ['0'.toUInt8], List.replicate zeros '0'.toUInt8 ++ ['1'.toUInt8], false, power⟩

/-- The literal of these parts. -/
def shiftedLiteral (zeros : Nat) (power : List UInt8) : List UInt8 :=
  '0'.toUInt8 :: '.'.toUInt8 ::
    (List.replicate zeros '0'.toUInt8 ++ '1'.toUInt8 :: 'e'.toUInt8 :: power)

/-- The zeros and the digits of the power, and four bytes more. -/
theorem length_shiftedLiteral (zeros : Nat) (power : List UInt8) :
    (shiftedLiteral zeros power).length = zeros + power.length + 4 := by
  simp [shiftedLiteral]
  omega

/-- The literal is written of its parts. -/
theorem written_shifted (zeros : Nat) {power : List UInt8} (all : Digits power)
    (some : power ≠ []) : Written (shiftedLiteral zeros power) (shifted zeros power) := by
  have zero : Digits ['0'.toUInt8] := List.all_eq_true.mp (by decide)
  have further : Digits (List.replicate zeros '0'.toUInt8 ++ ['1'.toUInt8]) := by
    intro digit among
    rcases List.mem_append.mp among with among | among
    · rw [(List.mem_replicate.mp among).2]
      decide
    · rw [List.mem_singleton.mp among]
      decide
  have same : shiftedLiteral zeros power = [] ++ (['0'.toUInt8] ++ '.'.toUInt8 ::
      (List.replicate zeros '0'.toUInt8 ++ ['1'.toUInt8]) ++ 'e'.toUInt8 :: ([] ++ power)) := by
    simp [shiftedLiteral]
  rw [same]
  exact .powered .none (.pointed zero (List.cons_ne_nil _ _) further) (by decide) .none all some

/-- The digits before the power make one. -/
theorem digits_shifted (zeros : Nat) (power : List UInt8) : (shifted zeros power).digits = 1 := by
  have none : ∀ count, denoted (List.replicate count '0'.toUInt8) = 0 := by
    intro count
    induction count with
    | zero => rfl
    | succ count ih =>
      rw [List.replicate_succ', denoted_concat, ih]
      rfl
  have first : ['0'.toUInt8] ++ (List.replicate zeros '0'.toUInt8 ++ ['1'.toUInt8]) =
      List.replicate (zeros + 1) '0'.toUInt8 ++ ['1'.toUInt8] := rfl
  rw [digits, shifted, first, denoted_concat, none]
  rfl

/-- As many places are after the point as there are zeros, and one more. -/
theorem exponent_shifted (size zeros : Nat) (power : List UInt8) :
    (shifted zeros power).exponent size = size - (zeros + 1) := by
  simp [exponent, shifted]

/-- The power of ten that undoes the places after the point makes one. -/
theorem exact_shifted {zeros : Nat} {power : List UInt8} (undoes : denoted power = zeros + 1) :
    (shifted zeros power).exact = 1 := by
  rw [exact, magnitude, digits_shifted, exponent_shifted]
  rw [show (shifted zeros power).power = power from rfl, undoes]
  simp

end Decimal

/-- The longest literal at the front is read as what it says. -/
theorem Longest.read?_eq {literal input : List UInt8} {numeral : Numeral}
    (longest : Longest literal input) (said : Says literal numeral) :
    ∃ rest, read? input = some (numeral, rest) := by
  cases read : read? input with
  | none => exact absurd longest.said (read?_eq_none_iff.mp read literal longest.front)
  | some found =>
    obtain ⟨other, also, said_also, _⟩ := read?_eq_some read
    have same := said.read?_eq
    rw [longest.unique also, said_also.read?_eq] at same
    cases same
    exact ⟨found.2, rfl⟩

/-- What is read at the front is the longest literal there. -/
theorem longest_of_read? {literal rest : List UInt8} {numeral : Numeral}
    (read : read? (literal ++ rest) = some (numeral, rest)) :
    Longest literal (literal ++ rest) := by
  obtain ⟨other, longest, _, parts⟩ := read?_eq_some read
  rw [List.append_cancel_right parts]
  exact parts ▸ longest

end Numeral

namespace Session

open Numeral Binary64

/-- The longest literal after the blank bytes ahead is written in digits, of these parts. -/
def FacesDecimal (decimal : Decimal) (session : Session) : Prop :=
  ∃ literal, Longest literal (session.tape.ahead.dropWhile Byte.isBlank) ∧
    Decimal.Written literal decimal

variable {session : Session} {decimal : Decimal}

/-- A literal in digits is answered with the number that is counted. -/
theorem FacesDecimal.answer (facing : session.FacesDecimal decimal) :
    (Action.numeral.perform session).answer = .number (.signed decimal.negative
      (ofDecimal decimal.digits (decimal.exponent (powerSize decimal.power)))) := by
  obtain ⟨literal, longest, written⟩ := facing
  obtain ⟨rest, read⟩ := longest.read?_eq written.meaning
  have scanned : (Numeral.scan session.tape.ahead).result =
      .ok (.signed decimal.negative
        (ofDecimal decimal.digits (decimal.exponent (powerSize decimal.power)))) := by
    rw [Numeral.scan, read]
    rfl
  exact congrArg (Answer.ofResult · Answer.number) scanned

end Session

namespace Binary64

/-- A field with its sign, as a number that is the larger the larger the value is. -/
def signedField (negative : Bool) (field : Nat) : ℤ := if negative then -(field : ℤ) else field

/-- Larger numbers have no smaller fields with their signs. -/
theorem signedField_mono {negative minus : Bool} {low high : ℚ} {first second : Nat}
    (rounds : Rounds low first) (also : Rounds high second) (start : 0 ≤ low)
    (start_high : 0 ≤ high)
    (order : (if negative then -low else low) ≤ (if minus then -high else high)) :
    signedField negative first ≤ signedField minus second := by
  have zero : ∀ {number : ℚ} {field : Nat}, Rounds number field → number ≤ 0 → field = 0 := by
    intro number field rounds none
    exact rounds.underflow.mpr (none.trans (by positivity))
  cases negative <;> cases minus <;>
    simp only [signedField, Bool.false_eq_true, if_true, if_false] at order ⊢
  · exact_mod_cast rounds.mono also order
  · rw [zero rounds (by linarith), zero also (by linarith)]
    rfl
  · omega
  · have least := also.mono rounds (by linarith)
    omega

end Binary64

namespace Session

open Numeral Binary64

variable {session : Session} {decimal : Decimal}

/-- A session that begins with such a literal faces it. -/
theorem facesDecimal_ofBytes {literal : List UInt8} (written : Decimal.Written literal decimal)
    (begins : literal.dropWhile Byte.isBlank = literal) :
    (ofBuffer (.lent (.ofBytes literal))).FacesDecimal decimal := by
  have read := written.meaning.read?_eq
  rw [← List.append_nil literal] at read
  have longest := longest_of_read? read
  rw [List.append_nil] at longest
  have ahead : (ofBuffer (.lent (.ofBytes literal))).tape.ahead = literal :=
    Tape.ahead_ofBytes literal
  refine ⟨literal, ?_, written⟩
  rw [ahead, begins]
  exact longest

/-- **A literal in digits is read as the number it denotes, rounded,** with the sign of the literal.
What is rounded is the number that is counted, and that rounds as the one that is denoted does,
unless digits of a large power of ten that do not count meet very many others. So literals that
denote one number are read as one field, and larger numbers as no smaller values. -/
theorem numeral_rounds (facing : session.FacesDecimal decimal) :
    ∃ field, (Action.numeral.perform session).answer = .number (.signed decimal.negative field) ∧
      Rounds decimal.counted field ∧
        (decimal.Moderate → Rounds decimal.exact field ∧
          ∀ (other : Session) (also : Decimal), other.FacesDecimal also → also.Moderate →
            ∃ second,
              (Action.numeral.perform other).answer = .number (.signed also.negative second) ∧
              (also.exact = decimal.exact → second = field) ∧
                (decimal.number ≤ also.number →
                  signedField decimal.negative field ≤ signedField also.negative second)) := by
  have answer := facing.answer
  obtain ⟨literal, longest, written⟩ := facing
  have counted : Rounds decimal.counted _ := ofDecimal_rounds decimal.digits _
  refine ⟨_, answer, counted, fun moderate => ?_⟩
  have exact := moderate.rounds written counted
  refine ⟨exact, fun other also facing_also moderate_also => ?_⟩
  have answer_also := facing_also.answer
  obtain ⟨_, _, written_also⟩ := facing_also
  have counted_also : Rounds also.counted _ := ofDecimal_rounds also.digits _
  have exact_also := moderate_also.rounds written_also counted_also
  refine ⟨_, answer_also, fun same => (same ▸ exact_also).unique exact, fun order => ?_⟩
  exact signedField_mono exact exact_also (Decimal.magnitude_nonneg _ _)
    (Decimal.magnitude_nonneg _ _) order

/-- A half with a minus, after blank bytes and as fifty hundredths. -/
theorem numeral_rounds_half :
    let half : Decimal := ⟨true, Byte.ofAscii "0", Byte.ofAscii "5", false, []⟩
    let hundredths : Decimal := ⟨true, Byte.ofAscii "50", [], true, Byte.ofAscii "02"⟩
    let first := ofBuffer (.lent (.ofBytes (Byte.ofAscii "-0.5")))
    let second := ofBuffer (.lent (.ofBytes (Byte.ofAscii " \t-50.E-02;")))
    (Action.numeral.perform first).answer = .number (.signed true 0x3FE0000000000000) ∧
      half.exact = 1 / 2 ∧ Rounds half.exact 0x3FE0000000000000 ∧ hundredths.exact = half.exact ∧
        (Action.numeral.perform second).answer = (Action.numeral.perform first).answer := by
  intro half hundredths first second
  have digits : ∀ text, (Byte.ofAscii text).all Byte.isDigit = true → Digits (Byte.ofAscii text) :=
    fun text all => List.all_eq_true.mp all
  have facing : first.FacesDecimal half :=
    facesDecimal_ofBytes
      (.plain .minus (.pointed (digits "0" (by decide)) (by decide) (digits "5" (by decide))))
      (by decide)
  have facing_second : second.FacesDecimal hundredths := by
    have read : read? (Byte.ofAscii "-50.E-02" ++ Byte.ofAscii ";") =
        some (.decimal true 50 (-2), Byte.ofAscii ";") := by decide +kernel
    refine ⟨_, longest_of_read? read, ?_⟩
    exact .powered .minus (.pointed (digits "50" (by decide)) (by decide) (digits "" (by decide)))
      (by decide) .minus (digits "02" (by decide)) (by decide)
  have exact_half : half.exact = 1 / 2 := by
    have five : half.digits = 5 := by decide +kernel
    have tenth : half.exponent (denoted half.power) = -1 := by decide +kernel
    rw [Decimal.exact, Decimal.magnitude, five, tenth]
    norm_num
  have exact_hundredths : hundredths.exact = 1 / 2 := by
    have fifty : hundredths.digits = 50 := by decide +kernel
    have hundredth : hundredths.exponent (denoted hundredths.power) = -2 := by decide +kernel
    rw [Decimal.exact, Decimal.magnitude, fifty, hundredth]
    norm_num
  have found : (Action.numeral.perform first).answer =
      .number (.signed true 0x3FE0000000000000) := by decide +kernel
  obtain ⟨field, answer, _, nearest⟩ := numeral_rounds facing
  obtain ⟨rounds, others⟩ := nearest (.inl (by decide +kernel))
  obtain ⟨second_field, answer_second, same, _⟩ :=
    others second hundredths facing_second (.inl (by decide +kernel))
  rw [answer] at found
  cases found
  have equal := exact_hundredths.trans exact_half.symm
  rw [answer_second, answer, same equal]
  exact ⟨rfl, exact_half, rounds, equal, rfl⟩

/-- After six hundred thousand zeros and more, a power of ten undoes them, but its last digit does
not count: one is read as zero. -/
theorem numeral_misses_long_power :
    let decimal := Decimal.shifted 655359 (Byte.ofAscii "655360")
    let session :=
      ofBuffer (.lent (.ofBytes (Decimal.shiftedLiteral 655359 (Byte.ofAscii "655360"))))
    session.Reached ∧ session.FacesDecimal decimal ∧ decimal.exact = 1 ∧
      (Action.numeral.perform session).answer = .number (.signed false 0) ∧
        ¬Rounds decimal.exact 0 := by
  intro decimal session
  have all : Digits (Byte.ofAscii "655360") := List.all_eq_true.mp (by decide)
  have whole : denoted (Byte.ofAscii "655360") = 655359 + 1 := by decide +kernel
  have one : decimal.exact = 1 := Decimal.exact_shifted whole
  have reached : session.Reached := by
    refine ⟨_, [], .lent _ ?_, trivial, rfl⟩
    rw [Decimal.length_shiftedLiteral]
    decide
  have facing : session.FacesDecimal decimal :=
    facesDecimal_ofBytes (Decimal.written_shifted _ all (by decide)) rfl
  have answer : (Action.numeral.perform session).answer = .number (.signed false 0) := by
    have counted : powerSize (Byte.ofAscii "655360") = 65536 := by decide
    rw [facing.answer, Decimal.digits_shifted, Decimal.exponent_shifted]
    rw [show decimal.power = Byte.ofAscii "655360" from rfl, counted]
    decide +kernel
  refine ⟨reached, facing, one, answer, fun rounds => ?_⟩
  rw [one] at rounds
  have small := rounds.underflow.mp rfl
  have half : (1 : ℚ) / 2 ^ 1075 < 1 :=
    (div_lt_one (by positivity)).mpr (one_lt_pow₀ one_lt_two (by decide))
  exact absurd small (not_le.mpr half)

end Session

end WireScan
