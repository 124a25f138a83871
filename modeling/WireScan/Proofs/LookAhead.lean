import WireScan.Proofs.Literals
import WireScan.Proofs.Pieces
import WireScan.Proofs.Progress

/-!
# Looking ahead of numerals

No part of a numeral looks far ahead. A reading that leaves five bytes is what it is whatever bytes
come after them, and one that finds no literal in four bytes never will (`Numeral.scan_settled`,
`Numeral.scan_refused`): `infinity` has five letters more than `inf`, and a power needs up to three
bytes to begin. So a reader that holds a numeral back until five bytes follow it reads the same
numbers in whichever pieces the bytes arrive (`Session.numeral_looks_ahead`).
-/
namespace WireScan

/-- A run that ends where a byte stands ends there whatever comes after. -/
theorem takeWhile_settled {test : UInt8 → Bool} {input : List UInt8}
    (ended : input.dropWhile test ≠ []) (more : List UInt8) :
    (input ++ more).takeWhile test = input.takeWhile test ∧
      (input ++ more).dropWhile test = input.dropWhile test ++ more := by
  induction input with
  | nil => exact absurd rfl ended
  | cons first rest ih =>
    rw [List.cons_append]
    by_cases passes : test first = true
    · rw [List.dropWhile_cons_of_pos passes] at ended
      have ⟨taken, dropped⟩ := ih ended
      simp only [List.takeWhile_cons_of_pos passes, List.dropWhile_cons_of_pos passes, taken,
        dropped, and_self]
    · simp only [List.takeWhile_cons_of_neg passes, List.dropWhile_cons_of_neg passes,
        List.cons_append, and_self]

namespace Numeral

/-! ## Parts of a numeral -/

/-- A sign leaves all bytes but one at least. -/
theorem length_le_sign (input : List UInt8) : input.length ≤ (sign input).2.length + 1 := by
  unfold sign
  split
  · exact Nat.zero_le _
  · split
    · exact Nat.le_refl _
    · split
      · exact Nat.le_refl _
      · exact Nat.le_succ _

/-- A sign that leaves a byte is the same whatever comes after. -/
theorem sign_settled {input : List UInt8} (left : (sign input).2 ≠ []) (more : List UInt8) :
    sign (input ++ more) = ((sign input).1, (sign input).2 ++ more) := by
  cases input with
  | nil => exact absurd rfl left
  | cons first rest =>
    rw [List.cons_append, sign, sign]
    split
    · rfl
    · split <;> rfl

/-- A run of digits that is none and leaves none has no bytes. -/
theorem eq_nil_of_digits {input : List UInt8} (none : input.takeWhile Byte.isDigit = [])
    (all : input.dropWhile Byte.isDigit = []) : input = [] := by
  have parts := List.takeWhile_append_dropWhile (p := Byte.isDigit) (l := input)
  rw [none, all] at parts
  exact parts.symm

/-- A fraction that leaves two bytes is the same whatever comes after: a point alone may wait for a
digit. -/
theorem fraction_settled {whole input : List UInt8}
    (left : 2 ≤ (fraction whole input).2.length) (more : List UInt8) :
    fraction whole (input ++ more) =
      ((fraction whole input).1, (fraction whole input).2 ++ more) := by
  cases input with
  | nil => exact absurd (show 2 ≤ 0 from left) (by decide)
  | cons next rest =>
    by_cases pointed : next = '.'.toUInt8
    · have ended : rest.dropWhile Byte.isDigit ≠ [] := by
        intro all
        unfold fraction at left
        dsimp only at left
        split at left <;> rename_i found
        · rw [all] at left
          exact absurd (show 2 ≤ 0 from left) (by decide)
        · have nothing := Classical.not_not.mp fun something => found ⟨pointed, something⟩
          rw [eq_nil_of_digits nothing.2 all] at left
          exact absurd (show 2 ≤ 1 from left) (by decide)
      have ⟨taken, dropped⟩ := takeWhile_settled ended more
      rw [List.cons_append, fraction, fraction, taken, dropped]
      split <;> rfl
    · rw [List.cons_append, fraction, fraction, if_neg fun found => pointed found.1,
        if_neg fun found => pointed found.1]
      rfl

/-- A power that leaves three bytes is the same whatever comes after: its letter and a sign may wait
for a digit. -/
theorem power_settled {input : List UInt8} (left : 3 ≤ (power input).2.length)
    (more : List UInt8) : power (input ++ more) = ((power input).1, (power input).2 ++ more) := by
  cases input with
  | nil => exact absurd (show 3 ≤ 0 from left) (by decide)
  | cons next rest =>
    by_cases marked : CaseRule.folded.equal 'e'.toUInt8 next = true
    · have signed := length_le_sign rest
      have ended : (sign rest).2.dropWhile Byte.isDigit ≠ [] := by
        intro all
        unfold power at left
        dsimp only at left
        split at left <;> rename_i found
        · rw [all] at left
          exact absurd (show 3 ≤ 0 from left) (by decide)
        · have nothing := Classical.not_not.mp fun something => found ⟨marked, something⟩
          rw [eq_nil_of_digits nothing all] at signed
          have short : 3 ≤ rest.length + 1 := left
          simp only [List.length_nil] at signed
          omega
      have some : (sign rest).2 ≠ [] := by
        intro none
        rw [none] at ended
        exact ended rfl
      have ⟨taken, dropped⟩ := takeWhile_settled ended more
      rw [List.cons_append, power, power, sign_settled some more]
      dsimp only
      rw [taken, dropped]
      split <;> rfl
    · rw [List.cons_append, power, power]
      dsimp only
      rw [if_neg fun found => marked found.1, if_neg fun found => marked found.1]
      rfl

/-- A decimal that leaves three bytes is the same whatever comes after. -/
theorem decimal?_settled {negative : Bool} {input rest : List UInt8} {numeral : Numeral}
    (read : decimal? negative input = some (numeral, rest)) (left : 3 ≤ rest.length)
    (more : List UInt8) : decimal? negative (input ++ more) = some (numeral, rest ++ more) := by
  unfold decimal? at read ⊢
  dsimp only at read ⊢
  split at read <;> rename_i some
  · cases read
  · obtain ⟨rfl, rfl⟩ := Prod.mk.inj (Option.some.inj read)
    have after := (power_leaves
      (fraction (input.takeWhile Byte.isDigit) (input.dropWhile Byte.isDigit)).2).length_le
    have before := (fraction_leaves (input.takeWhile Byte.isDigit)
      (input.dropWhile Byte.isDigit)).length_le
    have ended : input.dropWhile Byte.isDigit ≠ [] := by
      intro all
      rw [all] at before after left
      exact absurd (Nat.le_trans left (Nat.le_trans after before)) (by decide)
    have ⟨taken, dropped⟩ := takeWhile_settled ended more
    rw [taken, dropped, fraction_settled (by omega) more, if_neg some, power_settled left more]

/-- Where a decimal is read a digit or a point stands at the front. -/
theorem exists_first_of_decimal? {negative : Bool} {input rest : List UInt8} {numeral : Numeral}
    (read : decimal? negative input = some (numeral, rest)) :
    ∃ first later, input = first :: later ∧
      (Byte.isDigit first = true ∨ first = '.'.toUInt8) := by
  rw [decimal?_eq] at read
  match found : mantissa input with
  | ((whole, fraction), left) =>
    rw [found] at read
    dsimp only at read
    split at read <;> rename_i some
    · cases read
    · obtain ⟨digits, valid, parts⟩ := exists_mantissa found some
      obtain ⟨first, later, rfl, digit⟩ := valid.exists_first
      exact ⟨first, later ++ left, parts, digit⟩

/-! ## Words -/

/-- A word that is read is read whatever comes after. -/
theorem afterWord?_append {word input rest : List UInt8} (read : afterWord? word input = some rest)
    (more : List UInt8) : afterWord? word (input ++ more) = some (rest ++ more) := by
  obtain ⟨letters, cased, rfl⟩ := afterWord?_eq_some_iff.mp read
  exact afterWord?_eq_some_iff.mpr ⟨letters, cased, List.append_assoc _ _ _⟩

/-- A word that does not stand where as many bytes do never will. -/
theorem afterWord?_none_append {word input : List UInt8} (read : afterWord? word input = none)
    (enough : word.length ≤ input.length) (more : List UInt8) :
    afterWord? word (input ++ more) = none := by
  cases longer : afterWord? word (input ++ more) with
  | none => rfl
  | some rest =>
    obtain ⟨letters, cased, parts⟩ := afterWord?_eq_some_iff.mp longer
    have size := congrArg List.length cased
    rw [List.length_map, List.length_map] at size
    have front : letters <+: input :=
      List.prefix_of_prefix_length_le ⟨rest, parts.symm⟩ ⟨more, rfl⟩ (by omega)
    obtain ⟨left, split⟩ := front
    cases read.symm.trans (afterWord?_eq_some_iff.mpr ⟨letters, cased, split.symm⟩)

/-- As many bytes are left after a word as there were without it. -/
theorem length_afterWord? {word input rest : List UInt8}
    (read : afterWord? word input = some rest) :
    input.length = word.length + rest.length := by
  obtain ⟨letters, cased, rfl⟩ := afterWord?_eq_some_iff.mp read
  have size := congrArg List.length cased
  rw [List.length_map, List.length_map] at size
  rw [List.length_append, size]

/-! ## Numerals -/

/-- How many bytes are looked ahead of a numeral: as many as the long word for an infinity has more
than the short one. -/
def lookAhead : Nat := 5

/-- A numeral without its sign that leaves five bytes is the same whatever comes after. -/
theorem unsigned?_settled {negative : Bool} {input rest : List UInt8} {numeral : Numeral}
    (read : unsigned? negative input = some (numeral, rest)) (left : lookAhead ≤ rest.length)
    (more : List UInt8) : unsigned? negative (input ++ more) = some (numeral, rest ++ more) := by
  unfold lookAhead at left
  have long : (Byte.ofAscii "infinity").length = 8 := by decide
  have short : (Byte.ofAscii "inf").length = 3 := by decide
  have other : (Byte.ofAscii "nan").length = 3 := by decide
  rw [unsigned?] at read
  cases first : afterWord? (Byte.ofAscii "infinity") input with
  | some after =>
    rw [first] at read
    cases read
    rw [unsigned?, afterWord?_append first more]
  | none =>
    rw [first] at read
    dsimp only at read
    cases second : afterWord? (Byte.ofAscii "inf") input with
    | some after =>
      rw [second] at read
      cases read
      have size := length_afterWord? second
      rw [unsigned?, afterWord?_none_append first (by omega) more, afterWord?_append second more]
    | none =>
      rw [second] at read
      dsimp only at read
      cases third : afterWord? (Byte.ofAscii "nan") input with
      | some after =>
        rw [third] at read
        cases read
        have size := length_afterWord? third
        rw [unsigned?, afterWord?_none_append first (by omega) more,
          afterWord?_none_append second (by omega) more, afterWord?_append third more]
      | none =>
        rw [third] at read
        -- Where digits are read a digit or a point stands at the front, and so no word does.
        obtain ⟨next, later, rfl, digit⟩ := exists_first_of_decimal? read
        have longer := decimal?_settled read (by omega) more
        rw [List.cons_append] at longer ⊢
        rw [unsigned?_of_digit digit]
        exact longer

/-- A numeral that leaves five bytes is the same whatever comes after. -/
theorem read?_settled {input rest : List UInt8} {numeral : Numeral}
    (read : read? input = some (numeral, rest)) (left : lookAhead ≤ rest.length)
    (more : List UInt8) : read? (input ++ more) = some (numeral, rest ++ more) := by
  have unsigned : unsigned? (sign input).1 (sign input).2 = some (numeral, rest) := read
  have after : (sign input).2 ≠ [] := by
    intro nothing
    rw [nothing] at unsigned
    cases unsigned
  rw [read?, sign_settled after more]
  exact unsigned?_settled unsigned left more

/-- **A number that leaves five bytes is the same whatever comes after.** -/
theorem scan_settled {input rest : List UInt8} {value : Binary64} {notes : List Note}
    (scanned : scan input = ⟨.ok value, rest, notes⟩) (left : lookAhead ≤ rest.length)
    (more : List UInt8) : scan (input ++ more) = ⟨.ok value, rest ++ more, notes⟩ := by
  unfold scan at scanned ⊢
  cases read : read? (input.dropWhile Byte.isBlank) with
  | none =>
    rw [read] at scanned
    cases scanned
  | some found =>
    obtain ⟨numeral, after⟩ := found
    rw [read] at scanned
    cases scanned
    have ended : input.dropWhile Byte.isBlank ≠ [] := by
      intro nothing
      rw [nothing] at read
      cases read
    have ⟨_, dropped⟩ := takeWhile_settled ended more
    rw [dropped, read?_settled read left more]

/-! ## Refusals -/

/-- What a literal without its sign opens with at least: a digit, a point and a digit, or one of the
two short words. -/
inductive Opening : List UInt8 → Prop
  /-- A digit. -/
  | digit {digit : UInt8} (is_digit : Byte.isDigit digit = true) : Opening [digit]
  /-- A point and a digit. -/
  | point {digit : UInt8} (is_digit : Byte.isDigit digit = true) : Opening ['.'.toUInt8, digit]
  /-- A short word. -/
  | word {word : String} {letters : List UInt8} (short : word = "inf" ∨ word = "nan")
    (cased : Cased word letters) : Opening letters

/-- A sign is one byte at most. -/
theorem Signs.length_le {signs : List UInt8} {negative : Bool} (signed : Signs signs negative) :
    signs.length ≤ 1 := by
  cases signed <;> decide

/-- An opening is three bytes at most. -/
theorem Opening.length_le {opening : List UInt8} (opens : Opening opening) :
    opening.length ≤ 3 := by
  cases opens with
  | digit is_digit => exact Nat.le_add_left 1 2
  | point is_digit => exact Nat.le_add_left 2 1
  | word short cased =>
    have size := cased.length_eq
    rcases short with rfl | rfl
    · exact Nat.le_of_eq size
    · exact Nat.le_of_eq size

/-- A sign and an opening are a literal. -/
theorem Opening.literal {signs opening : List UInt8} {negative : Bool} (opens : Opening opening)
    (signed : Signs signs negative) : Literal (signs ++ opening) := by
  have alone : ∀ {digit : UInt8}, Byte.isDigit digit = true → Digits [digit] := by
    intro digit is_digit other among
    rw [List.mem_singleton.mp among]
    exact is_digit
  cases opens with
  | @digit digit is_digit =>
    exact ⟨_, .signed signed
      (.decimal (.whole (alone is_digit) (List.cons_ne_nil digit [])) .none)⟩
  | @point digit is_digit =>
    exact ⟨_, .signed signed
      (.decimal (.fraction (alone is_digit) (List.cons_ne_nil digit [])) .none)⟩
  | word short cased =>
    rcases short with rfl | rfl
    · exact ⟨_, .signed signed (.infinity (.inr cased))⟩
    · exact ⟨_, .signed signed (.nan cased)⟩

/-- What is said without a sign begins with an opening. -/
theorem SaysUnsigned.exists_opening {negative : Bool} {bytes : List UInt8} {numeral : Numeral}
    (said : SaysUnsigned negative bytes numeral) :
    ∃ opening, Opening opening ∧ opening <+: bytes := by
  have first : ∀ {whole : List UInt8}, Digits whole → whole ≠ [] → ∀ rest,
      ∃ opening, Opening opening ∧ opening <+: whole ++ rest := by
    intro whole all some rest
    obtain ⟨digit, later, rfl⟩ := List.exists_cons_of_ne_nil some
    exact ⟨[digit], .digit (all digit List.mem_cons_self),
      List.prefix_append [digit] (later ++ rest)⟩
  cases said with
  | infinity word =>
    rcases word with word | word
    · have cased : Cased "inf" (bytes.take 3) := by
        rw [Cased, List.map_take, show bytes.map Byte.fold = _ from word]
        decide
      exact ⟨_, .word (.inl rfl) cased, List.take_prefix 3 bytes⟩
    · exact ⟨_, .word (.inl rfl) word, List.prefix_refl bytes⟩
  | nan word => exact ⟨_, .word (.inr rfl) word, List.prefix_refl bytes⟩
  | decimal digits powered =>
    cases digits with
    | whole all some => exact first all some _
    | pointed all some further =>
      rw [List.append_assoc]
      exact first all some _
    | fraction all some =>
      obtain ⟨digit, later, rfl⟩ := List.exists_cons_of_ne_nil some
      exact ⟨_, .point (all digit List.mem_cons_self),
        List.prefix_append ['.'.toUInt8, digit] (later ++ _)⟩

/-- Every literal begins with a sign, or none, and an opening. -/
theorem Literal.exists_opening {literal : List UInt8} (said : Literal literal) :
    ∃ signs negative opening, Signs signs negative ∧ Opening opening ∧
      signs ++ opening <+: literal := by
  obtain ⟨numeral, said⟩ := said
  cases said with
  | @signed signs bytes negative numeral signed said =>
    obtain ⟨opening, opens, front⟩ := said.exists_opening
    exact ⟨signs, negative, opening, signed, opens, (List.prefix_append_right_inj signs).mpr front⟩

/-- **Where no literal stands in four bytes none ever will.** -/
theorem scan_refused {input rest : List UInt8} {fault : Fault} {notes : List Note}
    (scanned : scan input = ⟨.error fault, rest, notes⟩)
    (enough : 4 ≤ (input.dropWhile Byte.isBlank).length) (more : List UInt8) :
    scan (input ++ more) = ⟨.error .mismatch, input ++ more, []⟩ := by
  have unread : read? (input.dropWhile Byte.isBlank) = none := by
    unfold scan at scanned
    cases read : read? (input.dropWhile Byte.isBlank) with
    | none => rfl
    | some found =>
      rw [read] at scanned
      cases scanned
  have ended : input.dropWhile Byte.isBlank ≠ [] := by
    intro nothing
    rw [nothing] at enough
    exact absurd enough (by decide)
  have ⟨_, dropped⟩ := takeWhile_settled ended more
  have never : read? (input.dropWhile Byte.isBlank ++ more) = none := by
    refine read?_eq_none_iff.mpr fun taken front said => ?_
    obtain ⟨signs, negative, opening, signed, opens, begins⟩ := said.exists_opening
    have few : (signs ++ opening).length ≤ 4 := by
      have sign := signed.length_le
      have rest := opens.length_le
      rw [List.length_append]
      omega
    have inside : signs ++ opening <+: input.dropWhile Byte.isBlank :=
      List.prefix_of_prefix_length_le (begins.trans front) (List.prefix_append _ _)
        (Nat.le_trans few enough)
    exact read?_eq_none_iff.mp unread _ inside (opens.literal signed)
  rw [scan, dropped, never]

/-! ## Streams -/

/-- A number leaves the end of the bytes, and fewer of them. -/
theorem scan_rest {input rest : List UInt8} {value : Binary64} {notes : List Note}
    (scanned : scan input = ⟨.ok value, rest, notes⟩) :
    rest <:+ input ∧ rest.length < input.length := by
  unfold scan at scanned
  cases read : read? (input.dropWhile Byte.isBlank) with
  | none =>
    rw [read] at scanned
    cases scanned
  | some found =>
    obtain ⟨numeral, after⟩ := found
    rw [read] at scanned
    cases scanned
    obtain ⟨literal, said, parts⟩ := exists_says read
    have some : literal ≠ [] := by
      rintro rfl
      cases said.read?_eq
    have blanks : input.dropWhile Byte.isBlank <:+ input := List.dropWhile_suffix _
    have shorter := blanks.length_le
    have positive := List.length_pos_iff.mpr some
    rw [parts] at blanks shorter
    rw [List.length_append] at shorter
    exact ⟨(List.suffix_append literal rest).trans blanks, by omega⟩

/-- The numbers at the front of bytes that each have five bytes after them, and the bytes that are
held back. -/
def drain (input : List UInt8) : List Binary64 × List UInt8 :=
  match read : scan input with
  | ⟨.error _, _, _⟩ => ([], input)
  | ⟨.ok value, rest, _⟩ =>
    have := (scan_rest read).2
    if lookAhead ≤ rest.length then
      let later := drain rest
      (value :: later.1, later.2)
    else ([], input)
termination_by input.length

/-- Numbers are read while five bytes follow. -/
theorem drain_eq (input : List UInt8) :
    drain input =
      match scan input with
      | ⟨.error _, _, _⟩ => ([], input)
      | ⟨.ok value, rest, _⟩ =>
        if lookAhead ≤ rest.length then (value :: (drain rest).1, (drain rest).2)
        else ([], input) := by
  rw [drain]
  split <;> rename_i read
  · rw [read]
  · dsimp only
    rw [read]

/-- What is held back is held back again. -/
theorem drain_held (input : List UInt8) : drain (drain input).2 = ([], (drain input).2) := by
  fun_induction drain input with
  | case1 input fault rest notes read => rw [drain_eq, read]
  | case2 input value rest notes read shorter left later ih => exact ih
  | case3 input value rest notes read shorter short =>
    rw [drain_eq, read]
    exact if_neg short

/-- **Bytes that come later change none of the numbers.** -/
theorem drain_append (input more : List UInt8) :
    drain (input ++ more) =
      ((drain input).1 ++ (drain ((drain input).2 ++ more)).1,
        (drain ((drain input).2 ++ more)).2) := by
  fun_induction drain input with
  | case1 input fault rest notes read => rfl
  | case2 input value rest notes read shorter left later ih =>
    have longer : lookAhead ≤ (rest ++ more).length := by
      rw [List.length_append]
      omega
    rw [drain_eq, scan_settled read left more]
    dsimp only
    rw [if_pos longer, ih]
    rfl
  | case3 input value rest notes read shorter short => rfl

end Numeral

namespace Session

open Numeral

variable {session : Session}

/-- A reading of a number that is held back unless five bytes follow: the guard under which it was
tried is dropped then, and where there is no number. -/
def tryNumeral (session : Session) : Option Binary64 × Session :=
  let step := Action.numeral.perform session.openGuard
  match step.answer with
  | .number value =>
    if lookAhead ≤ step.session.tape.available then
      (some value, (step.session.closeGuard .commit).1)
    else (none, (step.session.closeGuard .drop).1)
  | _ => (none, (step.session.closeGuard .drop).1)

/-- Numbers are read one after the other until one is held back, at most as many as given. -/
def numerals : Nat → Session → List Binary64 × Session
  | 0, session => ([], session)
  | count + 1, session =>
    match session.tryNumeral with
    | (none, next) => ([], next)
    | (some value, next) =>
      let later := next.numerals count
      (value :: later.1, later.2)

/-- Pieces are written one after the other, and after each the numbers are read that are not held
back. -/
def stream : List (List UInt8) → Session → List Binary64 × Session
  | [], session => ([], session)
  | piece :: later, session =>
    let written := ((Command.write piece).perform session).session
    let read := written.numerals written.tape.available
    let rest := read.2.stream later
    (read.1 ++ rest.1, rest.2)

/-- A number that five bytes follow is read, and otherwise nothing changes. -/
theorem tryNumeral_eq (sound : session.tape.Sound) :
    session.tryNumeral =
      match Numeral.scan session.tape.ahead with
      | ⟨.error _, _, _⟩ => (none, session)
      | ⟨.ok value, rest, _⟩ =>
        if lookAhead ≤ rest.length then
          (some value, session.readTo
            (session.window.pos + (session.tape.ahead.length - rest.length)))
        else (none, session) := by
  have opened : session.openGuard.tape.Sound := sound
  have reached : (Action.numeral.perform session.openGuard).session = session.openGuard.readTo
      (session.window.pos +
        (session.tape.ahead.length - (Numeral.scan session.tape.ahead).rest.length)) :=
    passing_session opened Numeral.scan .number
  have answer : (Action.numeral.perform session.openGuard).answer =
      .ofResult (Numeral.scan session.tape.ahead).result .number := rfl
  rw [tryNumeral, answer, reached]
  match scanned : Numeral.scan session.tape.ahead with
  | ⟨.error fault, rest, notes⟩ =>
    dsimp only [Answer.ofResult]
    rw [drop_readTo sound.valid]
  | ⟨.ok value, rest, notes⟩ =>
    have ⟨suffix, shorter⟩ := scan_rest scanned
    have left : (session.openGuard.readTo
        (session.window.pos + (session.tape.ahead.length - rest.length))).tape.available =
          rest.length := by
      have stop := window_stop_eq sound.valid
      rw [available_readTo]
      change session.window.stop - _ = _
      omega
    dsimp only [Answer.ofResult]
    rw [left, drop_readTo sound.valid]
    rfl

/-- The numbers read of a session are those that its bytes begin with, and what is left ahead is
what is held back. -/
theorem numerals_spec {count : Nat} (sound : session.tape.Sound)
    (enough : session.tape.ahead.length ≤ count) :
    ∃ pos, session.window.pos ≤ pos ∧ pos ≤ session.window.stop ∧
      session.numerals count = ((drain session.tape.ahead).1, session.readTo pos) ∧
        (session.readTo pos).tape.ahead = (drain session.tape.ahead).2 := by
  induction count generalizing session with
  | zero =>
    have none := List.eq_nil_of_length_eq_zero (Nat.le_zero.mp enough)
    have drained : drain session.tape.ahead = ([], session.tape.ahead) := by
      rw [none, drain_eq]
      rfl
    refine ⟨session.window.pos, Nat.le_refl _, sound.valid.pos_le_stop, ?_, ?_⟩
    · rw [numerals, drained, readTo_self]
    · rw [readTo_self, drained]
  | succ count ih =>
    have stays : drain session.tape.ahead = ([], session.tape.ahead) →
        session.tryNumeral = (none, session) →
          ∃ pos, session.window.pos ≤ pos ∧ pos ≤ session.window.stop ∧
            session.numerals (count + 1) =
                ((drain session.tape.ahead).1, session.readTo pos) ∧
              (session.readTo pos).tape.ahead = (drain session.tape.ahead).2 := by
      intro drained tried
      refine ⟨session.window.pos, Nat.le_refl _, sound.valid.pos_le_stop, ?_, ?_⟩
      · rw [numerals, tried, drained, readTo_self]
      · rw [readTo_self, drained]
    have tried := tryNumeral_eq sound
    have drained := drain_eq session.tape.ahead
    match scanned : Numeral.scan session.tape.ahead with
    | ⟨.error fault, rest, notes⟩ =>
      rw [scanned] at tried drained
      exact stays drained tried
    | ⟨.ok value, rest, notes⟩ =>
      rw [scanned] at tried drained
      dsimp only at tried drained
      by_cases left : lookAhead ≤ rest.length
      · rw [if_pos left] at tried drained
        have ⟨suffix, shorter⟩ := scan_rest scanned
        have inside : session.window.pos + (session.tape.ahead.length - rest.length) ≤
            session.window.stop := by
          have stop := window_stop_eq sound.valid
          omega
        have ahead := ahead_readTo sound suffix
        obtain ⟨pos, further, bounded, read, held⟩ :=
          ih (sound_readTo sound (Nat.le_add_right _ _) inside) (by rw [ahead]; omega)
        rw [ahead] at read held
        rw [window_readTo] at further bounded
        rw [readTo_readTo] at read held
        refine ⟨pos, Nat.le_trans (Nat.le_add_right _ _) further, bounded, ?_, ?_⟩
        · rw [numerals, tried, drained]
          dsimp only
          rw [read]
        · rw [held, drained]
      · rw [if_neg left] at tried drained
        exact stays drained tried

/-- Reading on inside the window keeps what a growing buffer holds. -/
theorem holds_readTo {limit pos further : Nat} {stored : List UInt8} {buffer : Growing}
    (holds : Intake.Holds limit stored pos buffer) (on : pos ≤ further)
    (inside : further ≤ stored.length) :
    Intake.Holds limit stored further
      { buffer with
        tape := { buffer.tape with window := { buffer.tape.window with pos := further } } } := by
  have ⟨ordered, _, bounded⟩ := holds.sound.valid
  refine ⟨⟨⟨?_, ?_, bounded⟩, holds.sound.size_le, holds.sound.capacity_le, holds.sound.indexed⟩,
    holds.limit_eq, holds.bytes_eq, rfl, holds.stop_eq⟩
  · exact Nat.le_trans ordered (holds.pos_eq ▸ on)
  · exact holds.stop_eq ▸ inside

/-- What a growing buffer is written comes after what lies ahead. -/
theorem ahead_of_holds {limit pos : Nat} {stored piece : List UInt8} {buffer written : Growing}
    (holds : Intake.Holds limit stored pos buffer)
    (holds_written : Intake.Holds limit (stored ++ piece) pos written) :
    written.tape.ahead = buffer.tape.ahead ++ piece := by
  have pos_le : pos ≤ stored.length := by
    rw [← holds.pos_eq, ← holds.stop_eq]
    exact holds.sound.valid.pos_le_stop
  rw [holds_written.ahead_eq, holds.ahead_eq, List.drop_append_of_le_length pos_le]

/-- The stream of pieces over a growing buffer gives the numbers that the bytes ahead and the pieces
begin with. -/
theorem stream_spec {limit pos : Nat} {stored : List UInt8} {buffer : Growing}
    {pieces : List (List UInt8)} (held : session.buffer = .growing buffer)
    (holds : Intake.Holds limit stored pos buffer)
    (drained : drain session.tape.ahead = ([], session.tape.ahead))
    (fits : (stored ++ pieces.flatten).length ≤ limit) :
    (session.stream pieces).1 = (drain (session.tape.ahead ++ pieces.flatten)).1 ∧
      (session.stream pieces).2.tape.ahead = (drain (session.tape.ahead ++ pieces.flatten)).2 := by
  induction pieces generalizing session stored pos buffer with
  | nil =>
    rw [List.flatten_nil, List.append_nil, drained]
    exact ⟨rfl, rfl⟩
  | cons piece later ih =>
    rw [List.flatten_cons, ← List.append_assoc] at fits
    have small : (stored ++ piece).length ≤ limit := by
      rw [List.length_append] at fits
      omega
    obtain ⟨written, accepted, holds_written⟩ := holds.write small
    have wrote : ((Command.write piece).perform session).session =
        { session with buffer := .growing written } := by
      simp only [Command.perform, held, writing, accepted]
    generalize next_eq : { session with buffer := .growing written } = next at wrote
    have next_held : next.buffer = .growing written := next_eq ▸ rfl
    have whole : (Buffer.growing written).Sound := holds_written.sound
    have sound : next.tape.Sound := by
      rw [tape, next_held]
      exact whole.tape
    have ahead : next.tape.ahead = session.tape.ahead ++ piece := by
      rw [tape, tape, next_held, held]
      exact ahead_of_holds holds holds_written
    obtain ⟨further, on, inside, read, left⟩ :=
      numerals_spec sound (Nat.le_of_eq (Tape.length_ahead sound.valid))
    rw [ahead] at read left
    have window : next.window = written.tape.window := by
      rw [Session.window, tape, next_held]
      rfl
    rw [window, holds_written.pos_eq] at on
    rw [window, holds_written.stop_eq] at inside
    have held_on : (next.readTo further).buffer = .growing
        { written with
          tape :=
            { written.tape with window := { written.tape.window with pos := further } } } := by
      rw [readTo, withTape, next_held, window, tape, next_held]
      rfl
    obtain ⟨values, rest⟩ := ih held_on (holds_readTo holds_written on inside)
      (by rw [left]; exact drain_held _) fits
    rw [stream, wrote, read]
    dsimp only
    rw [left] at values rest
    rw [List.flatten_cons, ← List.append_assoc,
      drain_append (session.tape.ahead ++ piece) later.flatten, values, rest]
    exact ⟨rfl, rfl⟩

/-- A step reads a number with so many bytes and nothing else. -/
def ReadsNumber (session : Session) (value : Binary64) (count : Nat) : Prop :=
  Action.numeral.perform session =
    ⟨.number value, session.readTo (session.window.pos + count), []⟩

/-- The step that reads a numeral is the scan of the bytes ahead. -/
theorem perform_numeral (sound : session.tape.Sound) :
    Action.numeral.perform session =
      ⟨.ofResult (Numeral.scan session.tape.ahead).result .number,
        session.readTo (session.window.pos +
          (session.tape.ahead.length - (Numeral.scan session.tape.ahead).rest.length)),
        (Numeral.scan session.tape.ahead).notes⟩ :=
  passing_eq sound Numeral.scan .number

/-- A number is read exactly where the scan of the bytes ahead comes to it. -/
theorem readsNumber_iff (sound : session.tape.Sound) {value : Binary64} {count : Nat} :
    session.ReadsNumber value count ↔ ∃ rest,
      Numeral.scan session.tape.ahead = ⟨.ok value, rest, []⟩ ∧
        session.tape.ahead.length - rest.length = count := by
  rw [ReadsNumber, perform_numeral sound]
  match Numeral.scan session.tape.ahead with
  | ⟨.error fault, rest, notes⟩ =>
    constructor
    · intro never
      cases never
    · rintro ⟨_, never, _⟩
      cases never
  | ⟨.ok found, rest, notes⟩ =>
    constructor
    · intro same
      have ⟨answer, moved, noted⟩ := Step.mk.inj same
      have windows := congrArg (·.window.pos) moved
      simp only [window_readTo] at windows
      cases answer
      cases noted
      exact ⟨rest, rfl, by omega⟩
    · rintro ⟨_, same, rfl⟩
      cases same
      rfl

/-- **A number that five bytes follow is read the same whatever comes after them,** and where no
literal stands in four bytes none ever will. So the numbers of a stream, each held back until five
bytes follow it, are those of its bytes, in whichever pieces they arrive and whatever room there was
for them at first. -/
theorem numeral_looks_ahead {longer : Session} (sound : session.tape.Sound)
    (whole : longer.tape.Sound) {more : List UInt8}
    (extended : longer.tape.ahead = session.tape.ahead ++ more) :
    (∀ value count, session.ReadsNumber value count → 5 + count ≤ session.tape.available →
        longer.ReadsNumber value count) ∧
      ((Action.numeral.perform session).answer = .fault .mismatch →
        4 ≤ (session.tape.ahead.dropWhile Byte.isBlank).length →
          Action.numeral.perform longer = longer.answering (.fault .mismatch)) ∧
        ∀ (room limit : Nat) (pieces : List (List UInt8)), limit ≤ Index.largest →
          pieces.flatten.length ≤ limit →
            ((ofBuffer (.growing (.empty room limit))).stream pieces).1 =
              (drain pieces.flatten).1 := by
  refine ⟨?_, ?_, ?_⟩
  · intro value count reads enough
    obtain ⟨rest, scanned, taken⟩ := (readsNumber_iff sound).mp reads
    have ⟨_, shorter⟩ := scan_rest scanned
    rw [← Tape.length_ahead sound.valid] at enough
    have left : lookAhead ≤ rest.length := by
      unfold lookAhead
      omega
    refine (readsNumber_iff whole).mpr ⟨rest ++ more, ?_, ?_⟩
    · rw [extended]
      exact scan_settled scanned left more
    · rw [extended, List.length_append, List.length_append, Nat.add_sub_add_right]
      exact taken
  · intro refused enough
    rw [perform_numeral sound] at refused
    rw [perform_numeral whole, extended]
    match scanned : Numeral.scan session.tape.ahead with
    | ⟨.ok value, rest, notes⟩ =>
      rw [scanned] at refused
      cases refused
    | ⟨.error fault, rest, notes⟩ =>
      rw [scan_refused scanned enough more, Nat.sub_self, Nat.add_zero, readTo_self]
      rfl
  · intro room limit pieces indexed fits
    have empty : (ofBuffer (.growing (.empty room limit))).tape.ahead = [] := rfl
    have drained : drain [] = ([], []) := by
      rw [drain_eq]
      rfl
    have held : (ofBuffer (.growing (.empty room limit))).buffer = .growing (.empty room limit) :=
      rfl
    have streamed := stream_spec held (Intake.Holds.empty room indexed)
      (by rw [empty, drained]) fits
    rw [empty] at streamed
    exact streamed.1

/-- A power without digits and five bytes in all follow a number; numbers arrive in pieces that cut
them. -/
theorem numeral_looks_ahead_unfinished_power :
    let session := ofBuffer (.lent (.ofBytes (Byte.ofAscii "2.5e+ 12")))
    let longer := ofBuffer (.lent (.ofBytes (Byte.ofAscii "2.5e+ 1234")))
    let pieces := [" 1", "2.5", "e1 7", "      "].map Byte.ofAscii
    session.ReadsNumber (.signed false 0x4004000000000000) 3 ∧
      longer.ReadsNumber (.signed false 0x4004000000000000) 3 ∧
      ((ofBuffer (.growing (.empty 0 64))).stream pieces).1 =
        [.signed false 0x405F400000000000, .signed false 0x401C000000000000] := by
  intro session longer pieces
  have sound : session.tape.Sound := ⟨Tape.ofBytes_valid _, by decide⟩
  have whole : longer.tape.Sound := ⟨Tape.ofBytes_valid _, by decide⟩
  have extended : longer.tape.ahead = session.tape.ahead ++ Byte.ofAscii "34" := by decide +kernel
  have reads : session.ReadsNumber (.signed false 0x4004000000000000) 3 := by
    unfold ReadsNumber
    decide +kernel
  have ⟨settled, _, streamed⟩ := numeral_looks_ahead sound whole extended
  refine ⟨reads, settled _ _ reads (by decide +kernel), ?_⟩
  rw [streamed 0 64 pieces (by decide) (by decide)]
  decide +kernel

/-- Four bytes after a number are too few: it may still become another. -/
example : (Numeral.scan (Byte.ofAscii "infinit")).rest = Byte.ofAscii "init" ∧
    (Numeral.scan (Byte.ofAscii "infinity")).rest = [] := by decide +kernel

end Session

end WireScan
