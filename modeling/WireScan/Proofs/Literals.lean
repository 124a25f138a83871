import WireScan.Numeral
import Mathlib.Data.List.TakeWhile

/-!
# Literals of numbers

A literal is a sign and then a word or a decimal, and says a numeral (`Numeral.Says`). What is read
at the front of bytes is the longest literal there is, with the numeral that it says, and nothing is
read exactly where there is none (`Numeral.read?_eq_some`, `Numeral.read?_eq_none_iff`). No part of
the reading is ever taken back: each part passes over all that the part of a literal in its place
does, and where the literal ends the bytes it comes to the same (`Numeral.Covers`).
-/
namespace WireScan

namespace Byte

/-- A digit stands in one case. -/
theorem fold_of_isDigit {byte : UInt8} (digit : isDigit byte = true) : fold byte = byte := by
  unfold isDigit at digit
  unfold fold
  grind

/-- Only small letters have another case. -/
theorem fold_of_lt {byte : UInt8} (below : fold byte < 97) : fold byte = byte := by
  unfold fold at below ⊢
  grind

end Byte

namespace Numeral

/-! ## The grammar -/

/-- An optional sign, true for a minus. -/
inductive Signs : List UInt8 → Bool → Prop
  /-- No sign. -/
  | none : Signs [] false
  /-- A plus. -/
  | plus : Signs ['+'.toUInt8] false
  /-- A minus. -/
  | minus : Signs ['-'.toUInt8] true

/-- The letters of a word in any case. -/
def Cased (word : String) (letters : List UInt8) : Prop := letters.map Byte.fold = Byte.ofAscii word

/-- Any number of digits. -/
def Digits (digits : List UInt8) : Prop := ∀ digit ∈ digits, Byte.isDigit digit = true

/-- Digits with an optional point: the digits before it and those after it. -/
inductive Mantissa : List UInt8 → List UInt8 → List UInt8 → Prop
  /-- Digits. -/
  | whole {whole : List UInt8} (digits : Digits whole) (some : whole ≠ []) : Mantissa whole whole []
  /-- Digits, a point and any number of digits. -/
  | pointed {whole fraction : List UInt8} (digits : Digits whole) (some : whole ≠ [])
    (further : Digits fraction) : Mantissa (whole ++ '.'.toUInt8 :: fraction) whole fraction
  /-- A point and digits. -/
  | fraction {fraction : List UInt8} (digits : Digits fraction) (some : fraction ≠ []) :
    Mantissa ('.'.toUInt8 :: fraction) [] fraction

/-- An optional power of ten. -/
inductive Power : List UInt8 → Int → Prop
  /-- No power. -/
  | none : Power [] 0
  /-- The letter of a power in any case, an optional sign and digits. -/
  | some {letter : UInt8} {sign digits : List UInt8} {negative : Bool}
    (marked : Byte.fold letter = 'e'.toUInt8) (signed : Signs sign negative)
    (digits_all : Digits digits) (some : digits ≠ []) :
    Power (letter :: (sign ++ digits)) (if negative then -powerSize digits else powerSize digits)

/-- Without its sign the literal says the numeral. -/
inductive SaysUnsigned (negative : Bool) : List UInt8 → Numeral → Prop
  /-- One of the two words for an infinity. -/
  | infinity {letters : List UInt8} (word : Cased "infinity" letters ∨ Cased "inf" letters) :
    SaysUnsigned negative letters (.infinity negative)
  /-- The word for no number. -/
  | nan {letters : List UInt8} (word : Cased "nan" letters) : SaysUnsigned negative letters .nan
  /-- Digits with an optional point, and an optional power of ten. -/
  | decimal {mantissa whole fraction power : List UInt8} {exponent : Int}
    (digits : Mantissa mantissa whole fraction) (powered : Power power exponent) :
    SaysUnsigned negative (mantissa ++ power)
      (.decimal negative (spelled (whole ++ fraction)) (exponent - fraction.length))

/-- The literal says the numeral. -/
inductive Says : List UInt8 → Numeral → Prop
  /-- A sign and what is said without it. -/
  | signed {signs bytes : List UInt8} {negative : Bool} {numeral : Numeral}
    (signed : Signs signs negative) (said : SaysUnsigned negative bytes numeral) :
    Says (signs ++ bytes) numeral

/-- A literal: it says some numeral. -/
def Literal (bytes : List UInt8) : Prop := ∃ numeral, Says bytes numeral

/-- The longest literal at the front of bytes. -/
structure Longest (literal input : List UInt8) : Prop where
  /-- It is a literal. -/
  said : Literal literal
  /-- It stands at the front. -/
  front : literal <+: input
  /-- No literal there is longer. -/
  longest : ∀ other, Literal other → other <+: input → other.length ≤ literal.length

/-- A reading of what a part of a literal says and of bytes after it: it passes over that part at
least, and comes to what the part says where no bytes come after it. -/
structure Covers {α : Type} (said : α) (tail : List UInt8) (read : α × List UInt8) : Prop where
  /-- Nothing is left but bytes after the part. -/
  rest : read.2 <:+ tail
  /-- Where nothing comes after it, what the part says is read. -/
  value : tail = [] → read.1 = said

/-! ## Signs -/

/-- No sign stands at the front. -/
def Unsigned (input : List UInt8) : Prop :=
  ∀ first ∈ input.head?, first ≠ '-'.toUInt8 ∧ first ≠ '+'.toUInt8

/-- A sign is read, and none where there is none. -/
theorem sign_append {signs body : List UInt8} {negative : Bool} (signed : Signs signs negative)
    (unsigned : Unsigned body) : sign (signs ++ body) = (negative, body) := by
  cases signed with
  | plus => rfl
  | minus => rfl
  | none =>
    cases body with
    | nil => rfl
    | cons first rest =>
      have ⟨no_minus, no_plus⟩ := unsigned first rfl
      rw [List.nil_append, sign, if_neg no_minus, if_neg no_plus]

/-- What is read as a sign is one. -/
theorem exists_signs (input : List UInt8) :
    ∃ signs, Signs signs (sign input).1 ∧ input = signs ++ (sign input).2 := by
  unfold sign
  split
  · exact ⟨[], .none, rfl⟩
  · rename_i next rest
    split
    · rename_i minus
      exact ⟨['-'.toUInt8], .minus, by rw [minus]; rfl⟩
    · split
      · rename_i plus
        exact ⟨['+'.toUInt8], .plus, by rw [plus]; rfl⟩
      · exact ⟨[], .none, rfl⟩

/-! ## Words -/

/-- A word is read exactly where its letters stand in some case. -/
theorem afterWord?_eq_some_iff {word input rest : List UInt8} :
    afterWord? word input = some rest ↔
      ∃ letters, letters.map Byte.fold = word.map Byte.fold ∧ input = letters ++ rest := by
  induction word generalizing input with
  | nil => simp [afterWord?]
  | cons letter word ih =>
    cases input with
    | nil =>
      refine ⟨nofun, ?_⟩
      rintro ⟨letters, cased, parts⟩
      rw [(List.append_eq_nil_iff.mp parts.symm).1] at cased
      cases cased
    | cons next input =>
      simp only [afterWord?, CaseRule.equal_iff, CaseRule.fold]
      by_cases same : Byte.fold letter = Byte.fold next
      · rw [if_pos same, ih]
        constructor
        · rintro ⟨letters, cased, rfl⟩
          exact ⟨next :: letters, by simp [cased, same], rfl⟩
        · rintro ⟨letters, cased, parts⟩
          cases letters with
          | nil => cases cased
          | cons first letters =>
            obtain ⟨rfl, rfl⟩ := List.cons.inj parts
            exact ⟨letters, (List.cons.inj cased).2, rfl⟩
      · rw [if_neg same]
        refine ⟨nofun, ?_⟩
        rintro ⟨letters, cased, parts⟩
        cases letters with
        | nil => cases cased
        | cons first letters =>
          obtain ⟨rfl, rfl⟩ := List.cons.inj parts
          exact absurd (List.cons.inj cased).1.symm same

/-! ## Digits -/

/-- Digits and those after them are read. -/
theorem takeWhile_digits {digits : List UInt8} (all : Digits digits) (rest : List UInt8) :
    (digits ++ rest).takeWhile Byte.isDigit = digits ++ rest.takeWhile Byte.isDigit :=
  List.takeWhile_append_of_pos all

/-- What is left after digits is left after those that follow them. -/
theorem dropWhile_digits {digits : List UInt8} (all : Digits digits) (rest : List UInt8) :
    (digits ++ rest).dropWhile Byte.isDigit = rest.dropWhile Byte.isDigit :=
  List.dropWhile_append_of_pos all

/-- The digits at the front are digits. -/
theorem digits_takeWhile (input : List UInt8) : Digits (input.takeWhile Byte.isDigit) :=
  fun _ among => List.mem_takeWhile_imp among

/-- Neither a digit nor a point stands at the front. -/
def Closed (input : List UInt8) : Prop :=
  ∀ first ∈ input.head?, Byte.isDigit first = false ∧ first ≠ '.'.toUInt8

/-- No digit is read where none stands at the front. -/
theorem Closed.takeWhile {input : List UInt8} (closed : Closed input) :
    input.takeWhile Byte.isDigit = [] := by
  cases input with
  | nil => rfl
  | cons first rest => rw [List.takeWhile_cons, (closed first rfl).1]; rfl

/-- All is left where no digit stands at the front. -/
theorem Closed.dropWhile {input : List UInt8} (closed : Closed input) :
    input.dropWhile Byte.isDigit = input := by
  cases input with
  | nil => rfl
  | cons first rest => rw [List.dropWhile_cons, (closed first rfl).1]; rfl

/-- No fraction is read where no point stands at the front. -/
theorem Closed.fraction {input : List UInt8} (closed : Closed input) (whole : List UInt8) :
    fraction whole input = ([], input) := by
  cases input with
  | nil => rfl
  | cons first rest => rw [Numeral.fraction, if_neg fun pointed => (closed first rfl).2 pointed.1]

/-- A fraction leaves the end of what it is read from. -/
theorem fraction_leaves (whole input : List UInt8) : (fraction whole input).2 <:+ input := by
  unfold fraction
  split
  · exact List.suffix_refl _
  · rename_i next rest
    dsimp only
    split
    · exact (List.dropWhile_suffix _).trans (List.suffix_cons _ _)
    · exact List.suffix_refl _

/-- A point with digits after it is read with them. -/
theorem fraction_pointed {whole digits : List UInt8} (all : Digits digits)
    (some : ¬(whole = [] ∧ digits = [])) (rest : List UInt8) :
    fraction whole ('.'.toUInt8 :: (digits ++ rest)) =
      (digits ++ rest.takeWhile Byte.isDigit, rest.dropWhile Byte.isDigit) := by
  have found : ¬(whole = [] ∧ digits ++ rest.takeWhile Byte.isDigit = []) := fun none =>
    some ⟨none.1, (List.append_eq_nil_iff.mp none.2).1⟩
  rw [fraction, takeWhile_digits all, dropWhile_digits all, if_pos ⟨rfl, found⟩]

/-- The digits at the front with an optional point, those before it and those after it, and what is
left. -/
def mantissa (input : List UInt8) : (List UInt8 × List UInt8) × List UInt8 :=
  let whole := input.takeWhile Byte.isDigit
  let read := fraction whole (input.dropWhile Byte.isDigit)
  ((whole, read.1), read.2)

/-- A decimal is digits with an optional point and a power. -/
theorem decimal?_eq (negative : Bool) (input : List UInt8) :
    decimal? negative input =
      match mantissa input with
      | ((whole, fraction), rest) =>
        if whole = [] ∧ fraction = [] then none
        else some (.decimal negative (spelled (whole ++ fraction))
          ((power rest).1 - fraction.length), (power rest).2) := rfl

/-- Digits and what is read as a fraction after them are digits with an optional point, if there is
a digit. -/
theorem exists_fraction {whole input digits rest : List UInt8} (all : Digits whole)
    (read : fraction whole input = (digits, rest)) (some : ¬(whole = [] ∧ digits = [])) :
    ∃ bytes, Mantissa bytes whole digits ∧ whole ++ input = bytes ++ rest := by
  have stops : digits = [] ∧ rest = input →
      ∃ bytes, Mantissa bytes whole digits ∧ whole ++ input = bytes ++ rest := by
    rintro ⟨rfl, rfl⟩
    exact ⟨whole, .whole all fun none => some ⟨none, rfl⟩, rfl⟩
  cases input with
  | nil =>
    cases read
    exact stops ⟨rfl, rfl⟩
  | cons next input =>
    rw [fraction] at read
    split at read <;> rename_i pointed
    · cases read
      have parts := (List.takeWhile_append_dropWhile (p := Byte.isDigit) (l := input)).symm
      have further := digits_takeWhile input
      rw [pointed.1]
      by_cases none : whole = []
      · subst none
        refine ⟨_, .fraction further fun no_digits => some ⟨rfl, no_digits⟩, ?_⟩
        rw [List.nil_append, List.cons_append, ← parts]
      · refine ⟨_, .pointed all none further, ?_⟩
        rw [List.append_assoc, List.cons_append, ← parts]
    · cases read
      exact stops ⟨rfl, rfl⟩

/-- What is read as digits with an optional point is that, if there is a digit. -/
theorem exists_mantissa {input whole fraction rest : List UInt8}
    (read : mantissa input = ((whole, fraction), rest)) (some : ¬(whole = [] ∧ fraction = [])) :
    ∃ bytes, Mantissa bytes whole fraction ∧ input = bytes ++ rest := by
  obtain ⟨digits, left⟩ := Prod.mk.inj read
  obtain ⟨rfl, found⟩ := Prod.mk.inj digits
  have parts := List.takeWhile_append_dropWhile (p := Byte.isDigit) (l := input)
  obtain ⟨bytes, valid, same⟩ :=
    exists_fraction (digits_takeWhile input) (Prod.ext found left) some
  exact ⟨bytes, valid, parts.symm.trans same⟩

/-- Reading digits with an optional point, and bytes after them, covers them. -/
theorem Mantissa.covers {bytes whole fraction : List UInt8} (read : Mantissa bytes whole fraction)
    (tail : List UInt8) :
    (mantissa (bytes ++ tail)).2 <:+ tail ∧
      ¬((mantissa (bytes ++ tail)).1.1 = [] ∧ (mantissa (bytes ++ tail)).1.2 = []) ∧
        (Closed tail → mantissa (bytes ++ tail) = ((whole, fraction), tail)) := by
  have point : Byte.isDigit '.'.toUInt8 = false := by decide
  cases read with
  | whole digits some =>
    simp only [mantissa, takeWhile_digits digits, dropWhile_digits digits]
    refine ⟨(fraction_leaves _ _).trans (List.dropWhile_suffix _), ?_, fun closed => ?_⟩
    · exact fun none => some (List.append_eq_nil_iff.mp none.1).1
    · rw [closed.takeWhile, closed.dropWhile, List.append_nil, closed.fraction]
  | pointed digits some further =>
    have found : ¬(whole = [] ∧ fraction = []) := fun none => some none.1
    simp only [mantissa, List.append_assoc, List.cons_append, takeWhile_digits digits,
      dropWhile_digits digits, List.takeWhile_cons, List.dropWhile_cons, point,
      Bool.false_eq_true, if_false, List.append_nil, fraction_pointed further found]
    refine ⟨List.dropWhile_suffix _, fun none => some none.1, fun closed => ?_⟩
    rw [closed.takeWhile, closed.dropWhile, List.append_nil]
  | fraction digits some =>
    have found : ¬(([] : List UInt8) = [] ∧ fraction = []) := fun none => some none.2
    simp only [mantissa, List.cons_append, List.takeWhile_cons, List.dropWhile_cons, point,
      Bool.false_eq_true, if_false, fraction_pointed digits found]
    refine ⟨List.dropWhile_suffix _, fun none => some (List.append_eq_nil_iff.mp none.2).1,
      fun closed => ?_⟩
    rw [closed.takeWhile, closed.dropWhile, List.append_nil]

/-! ## Powers -/

/-- Where a digit stands at the front no sign does. -/
theorem unsigned_of_digit {first : UInt8} (digit : Byte.isDigit first = true) (rest : List UInt8) :
    Unsigned (first :: rest) := by
  rintro _ ⟨⟩
  constructor <;> rintro rfl <;> cases digit

/-- What is read as a power is one. -/
theorem exists_power (input : List UInt8) :
    ∃ bytes, Power bytes (power input).1 ∧ input = bytes ++ (power input).2 := by
  cases input with
  | nil => exact ⟨[], .none, rfl⟩
  | cons next rest =>
    obtain ⟨signs, signed, parts⟩ := exists_signs rest
    rw [power]
    dsimp only
    split <;> rename_i found
    · have marked : Byte.fold next = 'e'.toUInt8 := (CaseRule.equal_iff.mp found.1).symm
      refine ⟨_, .some marked signed (digits_takeWhile _) found.2, ?_⟩
      rw [List.cons_append, List.append_assoc, List.takeWhile_append_dropWhile, ← parts]
    · exact ⟨[], .none, rfl⟩

/-- A power leaves the end of what it is read from. -/
theorem power_leaves (input : List UInt8) : (power input).2 <:+ input := by
  obtain ⟨bytes, _, parts⟩ := exists_power input
  exact ⟨bytes, parts.symm⟩

/-- Reading a power and bytes after it covers it. -/
theorem Power.covers {bytes : List UInt8} {exponent : Int} (powered : Power bytes exponent)
    (tail : List UInt8) : Covers exponent tail (power (bytes ++ tail)) := by
  cases powered with
  | none => exact ⟨power_leaves tail, fun ended => by rw [ended]; rfl⟩
  | @some letter signs digits negative marked signed all some =>
    have unsigned : Unsigned (digits ++ tail) := by
      cases digits with
      | nil => exact absurd rfl some
      | cons first digits => exact unsigned_of_digit (all first List.mem_cons_self) _
    have equal : CaseRule.folded.equal 'e'.toUInt8 letter = true :=
      CaseRule.equal_iff.mpr marked.symm
    have found : digits ++ tail.takeWhile Byte.isDigit ≠ [] := fun none =>
      some (List.append_eq_nil_iff.mp none).1
    have read : power (letter :: (signs ++ digits) ++ tail) =
        (let size : Int := powerSize (digits ++ tail.takeWhile Byte.isDigit)
          if negative then -size else size, tail.dropWhile Byte.isDigit) := by
      rw [List.cons_append, List.append_assoc, power, sign_append signed unsigned]
      dsimp only
      rw [takeWhile_digits all, dropWhile_digits all, if_pos ⟨equal, found⟩]
    rw [read]
    refine ⟨List.dropWhile_suffix _, ?_⟩
    rintro rfl
    rw [List.takeWhile_nil, List.append_nil]

/-- A power that is there begins with no digit and no point. -/
theorem Power.closed {bytes : List UInt8} {exponent : Int} (powered : Power bytes exponent)
    (some : bytes ≠ []) (tail : List UInt8) : Closed (bytes ++ tail) := by
  cases powered with
  | none => exact absurd rfl some
  | some marked =>
    rintro first ⟨⟩
    refine ⟨Bool.eq_false_iff.mpr fun digit => ?_, ?_⟩
    · rw [Byte.fold_of_isDigit digit] at marked
      rw [marked] at digit
      cases digit
    · rintro rfl
      cases marked

/-! ## Decimals -/

/-- What is read as a decimal is one. -/
theorem exists_decimal {negative : Bool} {input rest : List UInt8} {numeral : Numeral}
    (read : decimal? negative input = some (numeral, rest)) :
    ∃ bytes, SaysUnsigned negative bytes numeral ∧ input = bytes ++ rest := by
  rw [decimal?_eq] at read
  match found : mantissa input with
  | ((whole, fraction), left) =>
    rw [found] at read
    dsimp only at read
    split at read <;> rename_i some
    · cases read
    · cases read
      obtain ⟨digits, valid, parts⟩ := exists_mantissa found some
      obtain ⟨bytes, powered, split⟩ := exists_power left
      refine ⟨digits ++ bytes, .decimal valid powered, ?_⟩
      rw [parts, List.append_assoc, ← split]

/-- Reading a decimal and bytes after it covers it. -/
theorem decimal?_covers (negative : Bool) {digits whole fraction bytes : List UInt8}
    {exponent : Int} (valid : Mantissa digits whole fraction) (powered : Power bytes exponent)
    (tail : List UInt8) :
    ∃ read, decimal? negative (digits ++ bytes ++ tail) = some read ∧
      Covers (.decimal negative (spelled (whole ++ fraction)) (exponent - fraction.length)) tail
        read := by
  obtain ⟨left, some, closed⟩ := valid.covers (bytes ++ tail)
  rw [List.append_assoc, decimal?_eq]
  cases found : mantissa (digits ++ (bytes ++ tail)) with
  | mk parts rest =>
    rw [found] at left some closed
    dsimp only at left some ⊢
    rw [if_neg some]
    refine ⟨_, rfl, ?_⟩
    by_cases none : bytes = []
    · -- The digits may go on after the literal; where nothing comes after it they do not.
      subst none
      refine ⟨(power_leaves rest).trans left, ?_⟩
      rintro rfl
      cases powered
      obtain ⟨rfl, rfl⟩ := Prod.mk.inj (closed nofun)
      rfl
    · obtain ⟨rfl, rfl⟩ := Prod.mk.inj (closed (powered.closed none tail))
      have covered := powered.covers tail
      exact ⟨covered.rest, fun ended => by rw [covered.value ended]⟩

/-! ## Literals -/

/-- A word in small letters is read exactly where its letters stand in some case. -/
theorem afterWord?_ofAscii_iff {word : String} {input rest : List UInt8}
    (small : (Byte.ofAscii word).map Byte.fold = Byte.ofAscii word) :
    afterWord? (Byte.ofAscii word) input = some rest ↔
      ∃ letters, Cased word letters ∧ input = letters ++ rest := by
  rw [afterWord?_eq_some_iff, small]
  rfl

/-- What is read without a sign is said without one. -/
theorem exists_unsigned {negative : Bool} {input rest : List UInt8} {numeral : Numeral}
    (read : unsigned? negative input = some (numeral, rest)) :
    ∃ bytes, SaysUnsigned negative bytes numeral ∧ input = bytes ++ rest := by
  unfold unsigned? at read
  split at read
  · rename_i left found
    cases read
    obtain ⟨letters, word, parts⟩ := (afterWord?_ofAscii_iff (by decide)).mp found
    exact ⟨letters, .infinity (.inl word), parts⟩
  · split at read
    · rename_i left found
      cases read
      obtain ⟨letters, word, parts⟩ := (afterWord?_ofAscii_iff (by decide)).mp found
      exact ⟨letters, .infinity (.inr word), parts⟩
    · split at read
      · rename_i left found
        cases read
        obtain ⟨letters, word, parts⟩ := (afterWord?_ofAscii_iff (by decide)).mp found
        exact ⟨letters, .nan word, parts⟩
      · exact exists_decimal read

/-- A word is not read where another letter stands at the front. -/
theorem afterWord?_eq_none {word : String} {letter next : UInt8}
    (begins : (Byte.ofAscii word).head? = some letter)
    (other : Byte.fold letter ≠ Byte.fold next) (rest : List UInt8) :
    afterWord? (Byte.ofAscii word) (next :: rest) = none := by
  have different : ¬CaseRule.folded.equal letter next = true := fun same =>
    other (CaseRule.equal_iff.mp same)
  obtain ⟨more, split⟩ := List.head?_eq_some_iff.mp begins
  rw [split, afterWord?, if_neg different]

/-- The letters of a word begin with its first letter in some case. -/
theorem Cased.exists_first {word : String} {letters : List UInt8} (cased : Cased word letters)
    {letter : UInt8} (begins : (Byte.ofAscii word).head? = some letter) :
    ∃ first rest, letters = first :: rest ∧ Byte.fold first = letter := by
  obtain ⟨more, split⟩ := List.head?_eq_some_iff.mp begins
  obtain ⟨first, rest, parts, same, _⟩ := List.map_eq_cons_iff.mp (cased.trans split)
  exact ⟨first, rest, parts, same⟩

/-- The letters of a word are as many as it has. -/
theorem Cased.length_eq {word : String} {letters : List UInt8} (cased : Cased word letters) :
    letters.length = (Byte.ofAscii word).length := by
  rw [← cased, List.length_map]

/-- Digits with an optional point begin with a digit or the point. -/
theorem Mantissa.exists_first {bytes whole fraction : List UInt8}
    (valid : Mantissa bytes whole fraction) :
    ∃ first rest, bytes = first :: rest ∧
      (Byte.isDigit first = true ∨ first = '.'.toUInt8) := by
  cases valid with
  | fraction => exact ⟨_, _, rfl, .inr rfl⟩
  | whole digits some =>
    obtain ⟨first, rest, rfl⟩ := List.exists_cons_of_ne_nil some
    exact ⟨first, rest, rfl, .inl (digits first List.mem_cons_self)⟩
  | pointed digits some =>
    obtain ⟨first, rest, rfl⟩ := List.exists_cons_of_ne_nil some
    exact ⟨first, _, rfl, .inl (digits first List.mem_cons_self)⟩

/-- Where a digit or a point stands at the front no word is read. -/
theorem unsigned?_of_digit {first : UInt8}
    (digit : Byte.isDigit first = true ∨ first = '.'.toUInt8) (negative : Bool)
    (rest : List UInt8) :
    unsigned? negative (first :: rest) = decimal? negative (first :: rest) := by
  have other : ∀ letter, 97 ≤ Byte.fold letter → Byte.fold letter ≠ Byte.fold first := by
    rintro letter small same
    rcases digit with digit | rfl
    · rw [same, Byte.fold_of_isDigit digit] at small
      simp only [Byte.isDigit, Bool.and_eq_true, decide_eq_true_eq] at digit
      exact absurd (UInt8.le_trans small digit.2) (by decide)
    · rw [same] at small
      exact absurd small (by decide)
  have no_i := other 'i'.toUInt8 (by decide)
  have no_n := other 'n'.toUInt8 (by decide)
  rw [unsigned?, afterWord?_eq_none (by decide) no_i, afterWord?_eq_none (by decide) no_i,
    afterWord?_eq_none (by decide) no_n]

/-- Reading what is said without a sign and bytes after it covers it. -/
theorem SaysUnsigned.covers {negative : Bool} {bytes : List UInt8} {numeral : Numeral}
    (said : SaysUnsigned negative bytes numeral) (tail : List UInt8) :
    ∃ read, unsigned? negative (bytes ++ tail) = some read ∧ Covers numeral tail read := by
  have reads : ∀ {word : String}, (Byte.ofAscii word).map Byte.fold = Byte.ofAscii word →
      Cased word bytes → afterWord? (Byte.ofAscii word) (bytes ++ tail) = some tail :=
    fun small word => (afterWord?_ofAscii_iff small).mpr ⟨bytes, word, rfl⟩
  cases said with
  | infinity word =>
    rw [unsigned?]
    cases long : afterWord? (Byte.ofAscii "infinity") (bytes ++ tail) with
    | some rest =>
      refine ⟨_, rfl, ?_, fun _ => rfl⟩
      obtain ⟨letters, cased, parts⟩ := (afterWord?_ofAscii_iff (by decide)).mp long
      have shorter : bytes.length ≤ letters.length := by
        rw [cased.length_eq]
        rcases word with word | word
        · exact Nat.le_of_eq word.length_eq
        · rw [word.length_eq]
          decide
      have counted := congrArg List.length parts
      rw [List.length_append, List.length_append] at counted
      have left : rest.length ≤ tail.length := by omega
      exact List.suffix_of_suffix_length_le ⟨letters, parts.symm⟩ ⟨bytes, rfl⟩ left
    | none =>
      rcases word with word | word
      · cases long.symm.trans (reads (by decide) word)
      · rw [reads (by decide) word]
        exact ⟨_, rfl, List.suffix_refl _, fun _ => rfl⟩
  | nan word =>
    have begins : (Byte.ofAscii "nan").head? = some 'n'.toUInt8 := by decide
    obtain ⟨first, rest, rfl, same⟩ := word.exists_first begins
    have no_i : Byte.fold 'i'.toUInt8 ≠ Byte.fold first := by
      rw [same]
      decide
    rw [unsigned?, reads (by decide) word, List.cons_append, afterWord?_eq_none (by decide) no_i,
      afterWord?_eq_none (by decide) no_i]
    exact ⟨_, rfl, List.suffix_refl _, fun _ => rfl⟩
  | decimal digits powered =>
    obtain ⟨first, rest, begins, digit⟩ := digits.exists_first
    obtain ⟨read, found, covered⟩ := decimal?_covers negative digits powered tail
    refine ⟨read, ?_, covered⟩
    rw [begins, List.cons_append, List.cons_append] at found ⊢
    rw [unsigned?_of_digit digit, found]

/-- What is said without a sign begins with none. -/
theorem SaysUnsigned.unsigned {negative : Bool} {bytes : List UInt8} {numeral : Numeral}
    (said : SaysUnsigned negative bytes numeral) (tail : List UInt8) :
    Unsigned (bytes ++ tail) := by
  have worded : ∀ {word : String} {letter : UInt8}, Cased word bytes →
      (Byte.ofAscii word).head? = some letter → 97 ≤ letter → Unsigned (bytes ++ tail) := by
    intro word letter cased begins small
    obtain ⟨first, rest, rfl, rfl⟩ := cased.exists_first begins
    rintro _ ⟨⟩
    constructor <;>
      · rintro rfl
        exact absurd small (by decide)
  have inf : (Byte.ofAscii "inf").head? = some 'i'.toUInt8 := by decide
  have infinity : (Byte.ofAscii "infinity").head? = some 'i'.toUInt8 := by decide
  have nan : (Byte.ofAscii "nan").head? = some 'n'.toUInt8 := by decide
  cases said with
  | infinity word =>
    rcases word with word | word
    · exact worded word infinity (by decide)
    · exact worded word inf (by decide)
  | nan word => exact worded word nan (by decide)
  | decimal digits powered =>
    obtain ⟨first, rest, rfl, digit⟩ := digits.exists_first
    rcases digit with digit | rfl
    · exact unsigned_of_digit digit _
    · rintro _ ⟨⟩
      decide

/-- What is read is said by a literal at the front. -/
theorem exists_says {input rest : List UInt8} {numeral : Numeral}
    (read : read? input = some (numeral, rest)) :
    ∃ literal, Says literal numeral ∧ input = literal ++ rest := by
  obtain ⟨signs, signed, parts⟩ := exists_signs input
  have read : unsigned? (sign input).1 (sign input).2 = some (numeral, rest) := read
  obtain ⟨bytes, said, split⟩ := exists_unsigned read
  exact ⟨signs ++ bytes, .signed signed said, by rw [List.append_assoc, ← split, ← parts]⟩

/-- Reading a literal and bytes after it covers it. -/
theorem Says.covers {literal : List UInt8} {numeral : Numeral} (said : Says literal numeral)
    (tail : List UInt8) :
    ∃ read, read? (literal ++ tail) = some read ∧ Covers numeral tail read := by
  obtain ⟨signed, said⟩ := said
  rw [List.append_assoc, read?, sign_append signed (said.unsigned tail)]
  exact said.covers tail

/-- A literal alone is read as what it says. -/
theorem Says.read?_eq {literal : List UInt8} {numeral : Numeral} (said : Says literal numeral) :
    read? literal = some (numeral, []) := by
  obtain ⟨⟨found, rest⟩, read, covered⟩ := said.covers []
  have none : rest = [] := List.suffix_nil.mp covered.rest
  have same : found = numeral := covered.value rfl
  rw [← List.append_nil literal, read, none, same]

/-- **Nothing is read exactly where no literal stands at the front.** -/
theorem read?_eq_none_iff {input : List UInt8} :
    read? input = none ↔ ∀ taken, taken <+: input → ¬Literal taken := by
  constructor
  · rintro none _ ⟨tail, rfl⟩ ⟨numeral, said⟩
    obtain ⟨read, found, _⟩ := said.covers tail
    cases none.symm.trans found
  · intro unsaid
    cases read : read? input with
    | none => rfl
    | some found =>
      obtain ⟨literal, said, parts⟩ := exists_says read
      exact absurd ⟨_, said⟩ (unsaid literal ⟨_, parts.symm⟩)

/-- **What is read is the longest literal at the front,** and the numeral is the one it says. -/
theorem read?_eq_some {input rest : List UInt8} {numeral : Numeral}
    (read : read? input = some (numeral, rest)) :
    ∃ literal, Longest literal input ∧ Says literal numeral ∧ input = literal ++ rest := by
  obtain ⟨literal, said, rfl⟩ := exists_says read
  refine ⟨literal, ⟨⟨_, said⟩, List.prefix_append _ _, ?_⟩, said, rfl⟩
  rintro other ⟨value, also⟩ ⟨tail, parts⟩
  obtain ⟨found, read_other, covered⟩ := also.covers tail
  rw [parts, read] at read_other
  cases read_other
  -- The reading leaves no more than lies after the other literal.
  have left := covered.rest.length_le
  have counted := congrArg List.length parts
  rw [List.length_append, List.length_append] at counted
  dsimp only at left
  omega

/-- The longest literal at the front is one. -/
theorem Longest.unique {first second input : List UInt8} (longest : Longest first input)
    (also : Longest second input) : first = second := by
  have shorter := also.longest _ longest.said longest.front
  have longer := longest.longest _ also.said also.front
  have within := List.prefix_of_prefix_length_le longest.front also.front shorter
  exact within.eq_of_length (Nat.le_antisymm shorter longer)

/-- Where a literal stands at the front there is a longest one. -/
theorem exists_longest {taken input : List UInt8} (front : taken <+: input)
    (said : Literal taken) : ∃ literal, Longest literal input := by
  cases read : read? input with
  | none => exact absurd said (read?_eq_none_iff.mp read taken front)
  | some found =>
    obtain ⟨literal, longest, _⟩ := read?_eq_some read
    exact ⟨literal, longest⟩

end Numeral

end WireScan
