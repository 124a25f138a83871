import WireScan.Numeral.Binary64
import Mathlib.Algebra.Order.Field.Rat
import Mathlib.Algebra.Order.AbsoluteValue.Basic
import Mathlib.Tactic.FieldSimp
import Mathlib.Tactic.Linarith
import Mathlib.Tactic.Positivity
import Mathlib.Tactic.Ring

/-!
# Rounding to binary64

A magnitude field stands for a number of units, each the least positive number, and one field more
stands for more units (`units_strictMono`). A ratio rounds to the field whose units are nearest to
it, of two that are as near to the even one, as long as exponents are thought to go on for ever
(`ofRatio_nearest`); where they end the field is infinity's, and that happens exactly from halfway
between the largest finite number and the power of two after it (`Nearest.rounds`). The field that a
ratio rounds to is the only one, and larger ratios round to no smaller fields (`Rounds.mono`).
-/
namespace WireScan.Binary64

/-- A power of two among the rationals. -/
theorem two_pow_cast (power : Nat) : ((2 ^ power : Nat) : ℚ) = 2 ^ power := by
  rw [Nat.cast_pow, Nat.cast_ofNat]

/-- A number shifted is multiplied by a power of two. -/
theorem shiftLeft_cast (number power : Nat) :
    ((number <<< power : Nat) : ℚ) = number * 2 ^ power := by
  rw [Nat.shiftLeft_eq, Nat.cast_mul, two_pow_cast]

/-! ## Fields -/

/-- The significand of a field: its low 52 bits, after a leading one unless its exponent is zero. -/
def significand (field : Nat) : Nat := if field < 2 ^ 52 then field else 2 ^ 52 + field % 2 ^ 52

/-- How often the significand of a field is doubled. The two lowest exponents do not double it. -/
def doublings (field : Nat) : Nat := field / 2 ^ 52 - 1

/-- How many units a field stands for. From the field of infinity on, exponents are thought to go
on. -/
def units (field : Nat) : Nat := significand field * 2 ^ doublings field

/-- The magnitude that a finite field stands for. -/
def magnitude (field : Nat) : ℚ := units field / 2 ^ 1074

/-- A field is its significand and as many steps of `2 ^ 52` as the significand is doubled. -/
theorem field_eq (field : Nat) : doublings field * 2 ^ 52 + significand field = field := by
  unfold doublings significand
  split <;> omega

/-- A significand has 53 bits. -/
theorem significand_lt (field : Nat) : significand field < 2 ^ 53 := by
  unfold significand
  split <;> omega

/-- A significand that is doubled has its leading one. -/
theorem significand_normal (field : Nat) : doublings field = 0 ∨ 2 ^ 52 ≤ significand field := by
  unfold doublings significand
  split <;> omega

/-- A significand is even where its field is. -/
theorem significand_even_iff (field : Nat) : significand field % 2 = 0 ↔ field % 2 = 0 := by
  unfold significand
  split <;> omega

/-- A power of two may be counted in the doublings or in the significand. -/
theorem carry (doubled : Nat) : 2 ^ 53 * 2 ^ doubled = 2 ^ 52 * 2 ^ (doubled + 1) := by
  have twice : 2 ^ (doubled + 1) = 2 ^ doubled * 2 := Nat.pow_succ _ _
  omega

/-- The units of a field from its parts. The significand may have reached `2 ^ 53`, which the next
field takes for a power of two that is doubled once more. -/
theorem units_eq {doubled bits : Nat} (bounded : bits ≤ 2 ^ 53)
    (normal : doubled = 0 ∨ 2 ^ 52 ≤ bits) :
    units (doubled * 2 ^ 52 + bits) = bits * 2 ^ doubled := by
  rcases Nat.lt_or_eq_of_le bounded with inside | rfl
  · have parts : significand (doubled * 2 ^ 52 + bits) = bits := by
      unfold significand
      split <;> omega
    have steps : doublings (doubled * 2 ^ 52 + bits) = doubled := by
      unfold doublings
      omega
    rw [units, parts, steps]
  · have parts : significand (doubled * 2 ^ 52 + 2 ^ 53) = 2 ^ 52 := by
      unfold significand
      split <;> omega
    have steps : doublings (doubled * 2 ^ 52 + 2 ^ 53) = doubled + 1 := by
      unfold doublings
      omega
    rw [units, parts, steps, carry]

/-- The next field stands for more units. -/
theorem units_lt_succ (field : Nat) : units field < units (field + 1) := by
  have next : field + 1 = doublings field * 2 ^ 52 + (significand field + 1) := by
    rw [← Nat.add_assoc, field_eq]
  have bounded := significand_lt field
  have normal := significand_normal field
  rw [next, units_eq (by omega) (by omega), units]
  exact Nat.mul_lt_mul_of_pos_right (Nat.lt_succ_self _) (Nat.two_pow_pos _)

/-- Larger fields stand for more units. -/
theorem units_strictMono : StrictMono units := strictMono_nat_of_lt_succ units_lt_succ

/-- Larger fields stand for larger magnitudes. -/
theorem magnitude_strictMono : StrictMono magnitude := by
  intro left right less
  have more : (units left : ℚ) < units right := Nat.cast_lt.mpr (units_strictMono less)
  exact div_lt_div_of_pos_right more (by positivity)

/-! ## Nearness -/

section Near

variable {low high target : ℚ}

/-- What is no nearer to the larger of two numbers lies below their middle. -/
theorem le_middle (less : low < high) (near : |low - target| ≤ |high - target|) :
    2 * target ≤ low + high := by
  by_contra above
  have right : |high - target| < target - low := abs_lt.mpr ⟨by linarith, by linarith⟩
  have left := le_abs_self (-(low - target))
  rw [abs_neg] at left
  linarith

/-- What is no nearer to the smaller of two numbers lies above their middle. -/
theorem middle_le (less : low < high) (near : |high - target| ≤ |low - target|) :
    low + high ≤ 2 * target := by
  have mirrored : |-high - -target| ≤ |-low - -target| := by
    rw [neg_sub_neg, neg_sub_neg, abs_sub_comm target, abs_sub_comm target]
    exact near
  have below := le_middle (neg_lt_neg less) mirrored
  linarith

/-- Both of two numbers are as far from their middle. -/
theorem middle_eq (middle : 2 * target = low + high) : |low - target| = |high - target| := by
  have mirrored : low - target = -(high - target) := by linarith
  rw [mirrored, abs_neg]

end Near

/-- The rounded value of a ratio is off by a half at the most. -/
theorem roundHalfEven_within (numerator : Nat) {denominator : Nat} (positive : 0 < denominator) :
    |(roundHalfEven numerator denominator : ℚ) - numerator / denominator| ≤ 1 / 2 := by
  have ⟨above, below⟩ := @roundHalfEven_near numerator denominator positive
  have scale : (0 : ℚ) < denominator := Nat.cast_pos.mpr positive
  have upper : (numerator : ℚ) / denominator ≤ roundHalfEven numerator denominator + 1 / 2 := by
    rw [div_le_iff₀ scale]
    have cast : (2 * numerator : ℚ) ≤
      (2 * roundHalfEven numerator denominator + 1) * denominator := by
      exact_mod_cast above
    linarith
  have lower : (roundHalfEven numerator denominator : ℚ) - 1 / 2 ≤ numerator / denominator := by
    rw [le_div_iff₀ scale]
    have cast : (2 * roundHalfEven numerator denominator * denominator : ℚ) ≤
        2 * numerator + denominator := by
      exact_mod_cast below
    linarith
  exact abs_le.mpr ⟨by linarith, by linarith⟩

/-- A half is rounded to an even number. -/
theorem roundHalfEven_even {numerator denominator : Nat} (positive : 0 < denominator)
    (half : |(roundHalfEven numerator denominator : ℚ) - numerator / denominator| = 1 / 2) :
    roundHalfEven numerator denominator % 2 = 0 := by
  have scale : (denominator : ℚ) ≠ 0 := Nat.cast_ne_zero.mpr (Nat.ne_of_gt positive)
  have twice : 2 * numerator = (2 * roundHalfEven numerator denominator + 1) * denominator ∨
      2 * roundHalfEven numerator denominator * denominator = 2 * numerator + denominator := by
    rcases (abs_eq (by positivity)).mp half with excess | lack
    · right
      field_simp at excess
      have cast : (2 * roundHalfEven numerator denominator * denominator : ℚ) =
          2 * numerator + denominator := by linarith
      exact_mod_cast cast
    · left
      field_simp at lack
      have cast : (2 * numerator : ℚ) =
          (2 * roundHalfEven numerator denominator + 1) * denominator := by linarith
      exact_mod_cast cast
  have parts := Nat.div_add_mod numerator denominator
  have small := Nat.mod_lt numerator positive
  rw [Nat.mul_comm] at parts
  unfold roundHalfEven at twice ⊢
  generalize numerator / denominator = quotient at *
  generalize numerator % denominator = remainder at *
  subst parts
  dsimp only at twice ⊢
  split at twice <;> rename_i down
  · rw [if_pos down]
    simp only [Nat.add_mul, Nat.mul_assoc] at twice
    omega
  · rw [if_neg down]
    simp only [Nat.add_mul, Nat.mul_add, Nat.mul_assoc] at twice
    omega

/-- No whole number is nearer to a ratio than its rounded value, and none is as near unless that is
even. -/
theorem roundHalfEven_nearest (numerator : Nat) {denominator other : Nat}
    (positive : 0 < denominator) (differs : other ≠ roundHalfEven numerator denominator) :
    |(roundHalfEven numerator denominator : ℚ) - numerator / denominator| ≤
        |(other : ℚ) - numerator / denominator| ∧
      (|(other : ℚ) - numerator / denominator| =
          |(roundHalfEven numerator denominator : ℚ) - numerator / denominator| →
        roundHalfEven numerator denominator % 2 = 0) := by
  have within := roundHalfEven_within numerator positive
  have apart : (1 : ℚ) ≤ |(other : ℚ) - roundHalfEven numerator denominator| := by
    have whole : (1 : ℤ) ≤ |(other : ℤ) - roundHalfEven numerator denominator| :=
      Int.one_le_abs (by omega)
    exact_mod_cast whole
  have far := abs_sub_le (other : ℚ) (numerator / denominator) (roundHalfEven numerator denominator)
  rw [abs_sub_comm ((numerator : ℚ) / denominator)] at far
  refine ⟨by linarith, fun same => roundHalfEven_even positive ?_⟩
  linarith

/-! ## Rounding without an end of exponents -/

/-- The units of the field are nearest to a count, of two that are as near those of the even field.
-/
structure Nearest (count : ℚ) (field : Nat) : Prop where
  /-- No field is nearer. -/
  near : ∀ other, |(units field : ℚ) - count| ≤ |(units other : ℚ) - count|
  /-- Where another is as near the field is even. -/
  even : ∀ other, other ≠ field → |(units other : ℚ) - count| = |(units field : ℚ) - count| →
    field % 2 = 0

namespace Nearest

variable {count : ℚ} {field bound : Nat}

/-- The count of a field that is not above another lies below the middle of that and the next. -/
theorem le_middle (nearest : Nearest count field) (below : field ≤ bound) :
    2 * count ≤ units bound + units (bound + 1) := by
  have order : (units field : ℚ) ≤ units bound :=
    Nat.cast_le.mpr (units_strictMono.monotone below)
  have less : (units field : ℚ) < units (bound + 1) :=
    Nat.cast_lt.mpr (units_strictMono (Nat.lt_succ_of_le below))
  have middle := Binary64.le_middle less (nearest.near (bound + 1))
  linarith

/-- The count of a field that is above another lies above the middle of that and the next. -/
theorem middle_le (nearest : Nearest count field) (above : bound < field) :
    (units bound + units (bound + 1) : ℚ) ≤ 2 * count := by
  have order : (units (bound + 1) : ℚ) ≤ units field :=
    Nat.cast_le.mpr (units_strictMono.monotone above)
  have less : (units bound : ℚ) < units field := Nat.cast_lt.mpr (units_strictMono above)
  have middle := Binary64.middle_le less (nearest.near bound)
  linarith

/-- The count in the middle of a field and the next has the even one of the two. -/
theorem middle (nearest : Nearest count field)
    (half : 2 * count = units bound + units (bound + 1)) :
    (field = bound ∨ field = bound + 1) ∧ field % 2 = 0 := by
  have apart : bound ≠ bound + 1 := Nat.ne_of_lt (Nat.lt_succ_self bound)
  have far := middle_eq half
  rcases Nat.lt_or_ge bound field with above | below
  · have less : (units bound : ℚ) < units field := Nat.cast_lt.mpr (units_strictMono above)
    have least := Binary64.middle_le less (nearest.near bound)
    have order : (units field : ℚ) ≤ units (bound + 1) := by linarith
    have within := units_strictMono.le_iff_le.mp (Nat.cast_le.mp order)
    have same : field = bound + 1 := Nat.le_antisymm within above
    subst same
    exact ⟨.inr rfl, nearest.even bound apart far⟩
  · have less : (units field : ℚ) < units (bound + 1) :=
      Nat.cast_lt.mpr (units_strictMono (Nat.lt_succ_of_le below))
    have most := Binary64.le_middle less (nearest.near (bound + 1))
    have order : (units bound : ℚ) ≤ units field := by linarith
    have within := units_strictMono.le_iff_le.mp (Nat.cast_le.mp order)
    have same : field = bound := Nat.le_antisymm below within
    subst same
    exact ⟨.inl rfl, nearest.even (field + 1) apart.symm far.symm⟩

/-- From an odd field on, a field is passed exactly from the middle on. -/
theorem lt_iff (nearest : Nearest count field) (odd : bound % 2 = 1) :
    bound < field ↔ (units bound + units (bound + 1) : ℚ) ≤ 2 * count := by
  refine ⟨nearest.middle_le, fun reached => Nat.lt_of_not_le fun below => ?_⟩
  have ⟨_, even⟩ := nearest.middle (le_antisymm (nearest.le_middle below) reached)
  have ⟨same, _⟩ := nearest.middle (le_antisymm (nearest.le_middle below) reached)
  omega

/-- Up to an even field, a field is kept exactly up to the middle. -/
theorem le_iff (nearest : Nearest count field) (even : bound % 2 = 0) :
    field ≤ bound ↔ 2 * count ≤ (units bound + units (bound + 1) : ℚ) := by
  refine ⟨nearest.le_middle, fun reached => Nat.le_of_not_lt fun above => ?_⟩
  have ⟨same, kept⟩ := nearest.middle (le_antisymm reached (nearest.middle_le above))
  omega

end Nearest

/-- The units of a field that is doubled less often than another keep below that one's least. -/
theorem units_lt_of_doublings {field doubled : Nat} (fewer : doublings field < doubled) :
    units field < 2 ^ 52 * 2 ^ doubled := by
  have split : doubled = (doubled - 1) + 1 := by omega
  have powers : 2 ^ doublings field ≤ 2 ^ (doubled - 1) :=
    Nat.pow_le_pow_right Nat.two_pos (by omega)
  calc units field
      < 2 ^ 53 * 2 ^ doublings field :=
        Nat.mul_lt_mul_of_pos_right (significand_lt field) (Nat.two_pow_pos _)
    _ ≤ 2 ^ 53 * 2 ^ (doubled - 1) := Nat.mul_le_mul_left _ powers
    _ = 2 ^ 52 * 2 ^ doubled := by rw [carry, ← split]

/-- The units of a field that is doubled as often as another or more are a whole multiple. -/
theorem exists_units_eq {field doubled : Nat} (more : doubled ≤ doublings field) :
    ∃ times, units field = times * 2 ^ doubled := by
  refine ⟨significand field * 2 ^ (doublings field - doubled), ?_⟩
  rw [units, Nat.mul_assoc, ← Nat.pow_add, Nat.sub_add_cancel more]

/-- A significand that is nearest to a count, once halved as often as the field is doubled, makes
the nearest field: fields that are doubled as often or more often stand for whole multiples, and
those that are doubled less often lie farther below. -/
theorem nearest_of_significand {count : ℚ} {doubled bits : Nat} (bounded : bits ≤ 2 ^ 53)
    (normal : doubled = 0 ∨ 2 ^ 52 ≤ bits)
    (reached : doubled = 0 ∨ ((2 ^ 52 * 2 ^ doubled : Nat) : ℚ) ≤ count)
    (near : ∀ other : Nat, other ≠ bits →
      |(bits : ℚ) - count / 2 ^ doubled| ≤ |(other : ℚ) - count / 2 ^ doubled| ∧
        (|(other : ℚ) - count / 2 ^ doubled| = |(bits : ℚ) - count / 2 ^ doubled| →
          bits % 2 = 0)) :
    Nearest count (doubled * 2 ^ 52 + bits) := by
  have scale : (0 : ℚ) < 2 ^ doubled := by positivity
  have scaled : ∀ other : Nat, |((other * 2 ^ doubled : Nat) : ℚ) - count| =
      |(other : ℚ) - count / 2 ^ doubled| * 2 ^ doubled := by
    intro other
    rw [← abs_of_pos scale, ← abs_mul, abs_of_pos scale, sub_mul, div_mul_cancel₀ _ scale.ne']
    push_cast
    rfl
  have whole : ∀ other : Nat,
      |((bits * 2 ^ doubled : Nat) : ℚ) - count| ≤ |((other * 2 ^ doubled : Nat) : ℚ) - count| := by
    intro other
    rw [scaled, scaled]
    by_cases same : other = bits
    · rw [same]
    · exact mul_le_mul_of_nonneg_right (near other same).1 scale.le
  have farther : ∀ {other : Nat}, doublings other < doubled →
      |((bits * 2 ^ doubled : Nat) : ℚ) - count| < |(units other : ℚ) - count| := by
    intro other fewer
    have least := reached.resolve_left (by omega)
    have below : (units other : ℚ) < (2 ^ 52 * 2 ^ doubled : Nat) :=
      Nat.cast_lt.mpr (units_lt_of_doublings fewer)
    refine lt_of_le_of_lt (whole (2 ^ 52)) ?_
    rw [abs_of_nonpos (sub_nonpos.mpr least), abs_of_neg (by linarith)]
    linarith
  have field := units_eq bounded normal
  constructor
  · intro other
    rw [field]
    rcases Nat.lt_or_ge (doublings other) doubled with fewer | more
    · exact (farther fewer).le
    · obtain ⟨times, same⟩ := exists_units_eq more
      rw [same]
      exact whole times
  · intro other differs same
    rw [field] at same
    rcases Nat.lt_or_ge (doublings other) doubled with fewer | more
    · exact absurd same (farther fewer).ne'
    · obtain ⟨times, made⟩ := exists_units_eq more
      have apart : times ≠ bits := by
        rintro rfl
        exact differs (units_strictMono.injective (made.trans field.symm))
      rw [made, scaled, scaled] at same
      have even := (near times apart).2 (mul_right_cancel₀ scale.ne' same)
      omega

/-- A ratio that keeps below a whole number is rounded to no more, and one that reaches a whole
number to no less. -/
theorem roundHalfEven_bounds (numerator : Nat) {denominator bound : Nat}
    (positive : 0 < denominator) :
    (numerator ≤ bound * denominator → roundHalfEven numerator denominator ≤ bound) ∧
      (bound * denominator ≤ numerator → bound ≤ roundHalfEven numerator denominator) := by
  have ⟨above, below⟩ := @roundHalfEven_near numerator denominator positive
  constructor
  · intro small
    have scaled : 2 * roundHalfEven numerator denominator * denominator ≤
        (2 * bound + 1) * denominator := by
      rw [Nat.add_mul, Nat.mul_assoc 2 bound]
      omega
    have order := Nat.le_of_mul_le_mul_right scaled positive
    omega
  · intro large
    have scaled : 2 * bound * denominator ≤
        (2 * roundHalfEven numerator denominator + 1) * denominator := by
      rw [Nat.mul_assoc 2 bound]
      omega
    have order := Nat.le_of_mul_le_mul_right scaled positive
    omega

/-- How far a ratio is halved: its units have 53 bits then, or fewer if it is not halved at all. -/
theorem halvings_spec (counted : Nat) {denominator : Nat} (positive : 0 < denominator) :
    let doubled := (counted / denominator).log2 - 52
    counted ≤ 2 ^ 53 * (denominator * 2 ^ doubled) ∧
      (doubled = 0 ∨ 2 ^ 52 * 2 ^ doubled * denominator ≤ counted) := by
  intro doubled
  constructor
  · have top : counted / denominator < 2 ^ ((counted / denominator).log2 + 1) := Nat.lt_log2_self
    have powers : 2 ^ ((counted / denominator).log2 + 1) ≤ 2 ^ (53 + doubled) :=
      Nat.pow_le_pow_right Nat.two_pos (by omega)
    have below := (Nat.div_lt_iff_lt_mul positive).mp (Nat.lt_of_lt_of_le top powers)
    rw [Nat.pow_add, Nat.mul_assoc, Nat.mul_comm (2 ^ doubled)] at below
    exact below.le
  · rcases Nat.eq_zero_or_pos doubled with none | some
    · exact .inl none
    · right
      have enough : counted / denominator ≠ 0 := by
        intro zero
        rw [show doubled = (counted / denominator).log2 - 52 from rfl, zero] at some
        exact absurd some (by decide)
      have bottom := Nat.log2_self_le enough
      have steps : (counted / denominator).log2 = 52 + doubled := by omega
      rw [steps, Nat.pow_add] at bottom
      exact (Nat.le_div_iff_mul_le positive).mp bottom

/-- **Without an end of exponents a ratio has the nearest field.** -/
theorem ofRatio_nearest (numerator : Nat) {denominator : Nat} (positive : 0 < denominator) :
    ∃ field, Nearest (numerator / denominator * 2 ^ 1074) field ∧
      ofRatio numerator denominator = min field infiniteField := by
  unfold ofRatio
  dsimp only
  have shifted := shiftLeft_cast numerator 1074
  generalize numerator <<< 1074 = counted at *
  have ⟨below, reached⟩ := halvings_spec counted positive
  generalize (counted / denominator).log2 - 52 = doubled at *
  rw [Nat.shiftLeft_eq, Nat.shiftLeft_eq]
  have scale : 0 < denominator * 2 ^ doubled := Nat.mul_pos positive (Nat.two_pow_pos _)
  have size : (0 : ℚ) < denominator := Nat.cast_pos.mpr positive
  have count : (numerator / denominator * 2 ^ 1074 : ℚ) = counted / denominator := by
    rw [shifted, div_mul_eq_mul_div]
  have halved : (counted : ℚ) / denominator / 2 ^ doubled =
      counted / (denominator * 2 ^ doubled : Nat) := by
    rw [Nat.cast_mul, two_pow_cast, div_div]
  refine ⟨_, ?_, rfl⟩
  rw [count]
  refine nearest_of_significand ((roundHalfEven_bounds counted scale).1 below) ?_ ?_ ?_
  · refine reached.imp_right fun least => (roundHalfEven_bounds counted scale).2 ?_
    rw [Nat.mul_comm denominator, ← Nat.mul_assoc]
    exact least
  · refine reached.imp_right fun least => ?_
    rw [le_div_iff₀ size]
    exact_mod_cast least
  · intro other differs
    rw [halved]
    exact roundHalfEven_nearest counted scale differs

/-! ## Rounding -/

/-- The field is the one that a number that is not negative rounds to. -/
structure Rounds (number : ℚ) (field : Nat) : Prop where
  /-- It is no field past the one of infinity. -/
  field_le : field ≤ infiniteField
  /-- It is the field of infinity exactly from halfway between the largest finite number and the
  power of two after it. -/
  overflow : field = infiniteField ↔ 2 ^ 1024 - 2 ^ 970 ≤ number
  /-- It is the field of zero exactly up to half of the least positive number. -/
  underflow : field = 0 ↔ number ≤ 1 / 2 ^ 1075
  /-- If it is finite, no finite field is nearer. -/
  nearest : field < infiniteField → ∀ other < infiniteField,
    |magnitude field - number| ≤ |magnitude other - number|
  /-- If it is finite and another finite field is as near, its significand is even. -/
  even : field < infiniteField → ∀ other < infiniteField, other ≠ field →
    |magnitude other - number| = |magnitude field - number| → significand field % 2 = 0

/-- The largest finite field. -/
def largestField : Nat := infiniteField - 1

/-- The units of the largest finite field, and of the next: the power of two after it. -/
theorem units_largestField :
    units largestField = (2 ^ 53 - 1) * 2 ^ 2045 ∧ units infiniteField = 2 ^ 53 * 2 ^ 2045 := by
  have largest : largestField = 2045 * 2 ^ 52 + (2 ^ 53 - 1) := by decide
  have infinite : infiniteField = 2045 * 2 ^ 52 + 2 ^ 53 := by decide
  rw [largest, infinite]
  exact ⟨units_eq (by decide) (by decide), units_eq (by decide) (by decide)⟩

/-- The middle between the largest finite field and the next. -/
theorem largest_middle :
    (units largestField + units (largestField + 1) : ℚ) =
      2 * ((2 ^ 1024 - 2 ^ 970) * 2 ^ 1074) := by
  have ⟨largest, infinite⟩ := units_largestField
  have next : largestField + 1 = infiniteField := by decide
  have wide : (2 : ℚ) ^ 1024 * 2 ^ 1074 = 2 ^ 53 * 2 ^ 2045 := by rw [← pow_add, ← pow_add]
  have narrow : (2 : ℚ) ^ 970 * 2 ^ 1074 * 2 = 2 ^ 2045 := by rw [← pow_add, ← pow_succ]
  have ones : ((2 ^ 53 - 1 : Nat) : ℚ) = 2 ^ 53 - 1 := by norm_num
  rw [next, largest, infinite, Nat.cast_mul, Nat.cast_mul, ones, two_pow_cast 2045, two_pow_cast 53,
    sub_mul (2 ^ 1024 : ℚ), wide]
  generalize (2 : ℚ) ^ 970 * 2 ^ 1074 = half at *
  generalize (2 : ℚ) ^ 2045 = top at *
  linarith

/-- The distance of a magnitude from a number, in units. -/
theorem magnitude_distance (field : Nat) (number : ℚ) :
    |magnitude field - number| = |(units field : ℚ) - number * 2 ^ 1074| / 2 ^ 1074 := by
  have scale : (0 : ℚ) < 2 ^ 1074 := by positivity
  rw [← abs_of_pos scale, ← abs_div, abs_of_pos scale, sub_div, mul_div_cancel_right₀ _ scale.ne']
  rfl

/-- A number has the field of its nearest units, cut off at infinity. -/
theorem Nearest.rounds {number : ℚ} {field : Nat} (nearest : Nearest (number * 2 ^ 1074) field) :
    Rounds number (min field infiniteField) := by
  have scale : (0 : ℚ) < 2 ^ 1074 := by positivity
  have finite : min field infiniteField < infiniteField → min field infiniteField = field := by
    omega
  constructor
  · exact Nat.min_le_right _ _
  · have passed : min field infiniteField = infiniteField ↔ largestField < field := by
      have next : largestField + 1 = infiniteField := by decide
      omega
    rw [passed, nearest.lt_iff (by decide), largest_middle, mul_le_mul_iff_right₀ two_pos,
      mul_le_mul_iff_left₀ scale]
  · have kept : min field infiniteField = 0 ↔ field ≤ 0 := by
      have positive : 0 < infiniteField := by decide
      omega
    have first : (units 0 + units (0 + 1) : ℚ) = 1 := by
      have zero : units 0 = 0 := by decide
      have one : units (0 + 1) = 1 := by decide
      rw [zero, one]
      norm_num
    have least : (2 : ℚ) ^ 1075 = 2 ^ 1074 * 2 := pow_succ _ _
    have half : number * (2 ^ 1074 * 2) = 2 * (number * 2 ^ 1074) := by
      rw [← mul_assoc, mul_comm]
    rw [kept, nearest.le_iff rfl, first, le_div_iff₀ (by positivity), least, half]
  · intro inside other _
    rw [finite inside, magnitude_distance, magnitude_distance]
    exact div_le_div_of_nonneg_right (nearest.near other) scale.le
  · intro inside other _ differs same
    rw [finite inside] at differs same ⊢
    rw [magnitude_distance, magnitude_distance, div_left_inj' scale.ne'] at same
    exact (significand_even_iff field).mpr (nearest.even other differs same)

/-- A ratio rounds to its field. -/
theorem ofRatio_rounds (numerator : Nat) {denominator : Nat} (positive : 0 < denominator) :
    Rounds (numerator / denominator) (ofRatio numerator denominator) := by
  obtain ⟨field, nearest, same⟩ := ofRatio_nearest numerator positive
  rw [same]
  exact nearest.rounds

/-- Half of the least positive number and less rounds to zero. -/
theorem rounds_zero {number : ℚ} (start : 0 ≤ number) (small : number ≤ 1 / 2 ^ 1075) :
    Rounds number 0 := by
  have scale : (0 : ℚ) < 2 ^ 1074 := by positivity
  have least : (2 : ℚ) ^ 1075 = 2 ^ 1074 * 2 := pow_succ _ _
  rw [le_div_iff₀ (by positivity), least, ← mul_assoc] at small
  have counted := mul_nonneg start scale.le
  have none : units 0 = 0 := by decide
  have nearest : Nearest (number * 2 ^ 1074) 0 := by
    generalize number * 2 ^ 1074 = count at *
    refine ⟨fun other => ?_, fun _ _ _ => rfl⟩
    rw [none, Nat.cast_zero, zero_sub, abs_neg, abs_of_nonneg counted]
    rcases Nat.eq_zero_or_pos (units other) with zero | some
    · rw [zero, Nat.cast_zero, zero_sub, abs_neg, abs_of_nonneg counted]
    · have one : (1 : ℚ) ≤ units other := Nat.one_le_cast.mpr some
      have distance := le_abs_self ((units other : ℚ) - count)
      linarith
  exact nearest.rounds

/-- What is halfway to the power of two after the largest finite number, or more, rounds to
infinity. -/
theorem rounds_infinite {number : ℚ} (large : 2 ^ 1024 - 2 ^ 970 ≤ number) :
    Rounds number infiniteField := by
  have beyond : ¬infiniteField < infiniteField := Nat.lt_irrefl _
  have above : (1 : ℚ) / 2 ^ 1075 < 2 ^ 1024 - 2 ^ 970 := by
    have split : (2 : ℚ) ^ 1024 = 2 ^ 54 * 2 ^ 970 := by rw [← pow_add]
    have one : (1 : ℚ) ≤ 2 ^ 970 := one_le_pow₀ one_le_two
    have half : (1 : ℚ) / 2 ^ 1075 ≤ 1 := div_le_one_of_le₀ (one_le_pow₀ one_le_two) (by positivity)
    rw [split]
    generalize (2 : ℚ) ^ 970 = step at *
    generalize (1 : ℚ) / 2 ^ 1075 = least at *
    linarith only [one, half]
  refine ⟨Nat.le_refl _, ⟨fun _ => large, fun _ => rfl⟩, ⟨nofun, fun small => ?_⟩,
    fun inside => absurd inside beyond, fun inside => absurd inside beyond⟩
  exact absurd (above.trans_le large) (not_lt.mpr small)

/-- **Larger numbers round to no smaller fields.** So a number has no more than one. -/
theorem Rounds.mono {low high : ℚ} {first second : Nat} (rounds : Rounds low first)
    (also : Rounds high second) (order : low ≤ high) : first ≤ second := by
  refine Nat.le_of_not_lt fun less => ?_
  have inside : first < infiniteField := by
    refine Nat.lt_of_le_of_ne rounds.field_le fun infinite => ?_
    have overflows := also.overflow.mpr (le_trans (rounds.overflow.mp infinite) order)
    omega
  have within : second < infiniteField := Nat.lt_trans less inside
  have above := middle_le (magnitude_strictMono less) (rounds.nearest inside second within)
  have below := le_middle (magnitude_strictMono less) (also.nearest within first inside)
  -- Both are the middle of the two magnitudes, so both fields are even; the one between is nearer.
  have same : high = low := by linarith
  have far : |magnitude second - low| = |magnitude first - low| := middle_eq (by linarith)
  have first_even := rounds.even inside second within (Nat.ne_of_lt less) far
  have second_even := also.even within first inside (Nat.ne_of_gt less) (by rw [same, far])
  rw [significand_even_iff] at first_even second_even
  have between : second + 1 < first := by omega
  have higher : magnitude second < magnitude (second + 1) :=
    magnitude_strictMono (Nat.lt_succ_self second)
  have beyond := middle_le (magnitude_strictMono between)
    (rounds.nearest inside (second + 1) (Nat.lt_trans between inside))
  linarith

/-- A number rounds to one field only. -/
theorem Rounds.unique {number : ℚ} {first second : Nat} (rounds : Rounds number first)
    (also : Rounds number second) : first = second :=
  Nat.le_antisymm (rounds.mono also le_rfl) (also.mono rounds le_rfl)

/-! ## Decimals -/

/-- Powers of ten are larger than as many powers of eight. -/
theorem two_pow_le_ten_pow {twos tens : Nat} (few : twos ≤ 3 * tens) :
    (2 : ℚ) ^ twos ≤ 10 ^ tens := by
  calc (2 : ℚ) ^ twos
      ≤ 2 ^ (3 * tens) := pow_le_pow_right₀ one_le_two few
    _ = (2 ^ 3) ^ tens := pow_mul _ _ _
    _ ≤ 10 ^ tens := pow_le_pow_left₀ (by positivity) (by norm_num) _

/-- **A whole number of powers of ten rounds to its field,** also where no power is computed. -/
theorem ofDecimal_rounds (digits : Nat) (exponent : ℤ) :
    Rounds (digits * 10 ^ exponent) (ofDecimal digits exponent) := by
  unfold ofDecimal
  split
  · rename_i none
    rw [none, Nat.cast_zero, zero_mul]
    exact rounds_zero le_rfl (by positivity)
  · rename_i some
    have one : (1 : ℚ) ≤ digits := Nat.one_le_cast.mpr (Nat.pos_of_ne_zero some)
    cases exponent with
    | ofNat tens =>
      rw [Int.ofNat_eq_natCast, zpow_natCast]
      dsimp only
      split <;> rename_i far
      · have power : (2 : ℚ) ^ 1024 ≤ 10 ^ tens := two_pow_le_ten_pow far
        have large : (2 : ℚ) ^ 1024 ≤ digits * 10 ^ tens := by
          have positive : (0 : ℚ) ≤ 10 ^ tens := by positivity
          exact power.trans (le_mul_of_one_le_left positive one)
        have gap : (0 : ℚ) ≤ 2 ^ 970 := by positivity
        exact rounds_infinite ((sub_le_self _ gap).trans large)
      · have rounds := ofRatio_rounds (digits * Nat.pow 10 tens) Nat.one_pos
        have same : ((digits * Nat.pow 10 tens : Nat) : ℚ) / (1 : Nat) = digits * 10 ^ tens := by
          rw [Nat.cast_one, div_one, Nat.cast_mul]
          exact congrArg _ (Nat.cast_pow 10 tens)
        rw [← same]
        exact rounds
    | negSucc fewer =>
      rw [zpow_negSucc]
      dsimp only
      split <;> rename_i far
      · have bits : (digits : ℚ) < 2 ^ (digits.log2 + 1) := by
          exact_mod_cast Nat.lt_log2_self
        have power : (2 : ℚ) ^ (digits.log2 + 1) * 2 ^ 1075 ≤ 10 ^ (fewer + 1) := by
          rw [← pow_add]
          exact two_pow_le_ten_pow far
        refine rounds_zero (by positivity) ?_
        rw [← div_eq_mul_inv, div_le_div_iff₀ (by positivity) (by positivity), one_mul]
        exact (mul_le_mul_of_nonneg_right bits.le (by positivity)).trans power
      · have positive : 0 < Nat.pow 10 (fewer + 1) := Nat.pow_pos (by decide)
        have rounds := ofRatio_rounds digits positive
        have same : (digits : ℚ) / (Nat.pow 10 (fewer + 1) : Nat) =
            digits * (10 ^ (fewer + 1))⁻¹ := by
          rw [div_eq_mul_inv]
          exact congrArg (fun scale : ℚ => digits * scale⁻¹) (Nat.cast_pow 10 (fewer + 1))
        rw [← same]
        exact rounds

end WireScan.Binary64
