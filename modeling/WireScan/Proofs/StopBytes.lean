import Mathlib.Data.List.Forall2
import Mathlib.Order.Bounds.Basic
import WireScan.Proofs.Progress

/-!
# Where a scan for a stop byte stops

A scan for a stop byte passes over the longest front of the bytes ahead that has no byte of the set
in it, and fails where that front is everything (`Scan.upTo_eq`, `StopSet.isGreatest_clear`). So it
sees of a stop set nothing but which bytes are in it (`Scan.upTo_congr`). Two bytes fold to the same
exactly when one is the other or its other case (`Byte.fold_eq_fold_iff`): a folded scan is an exact
one for both cases of every member (`StopSet.contains_both_cases`), and letters that change their
case change nothing of it (`Scan.upTo_recased`).
-/
namespace WireScan

/-! ## Cases of letters -/

namespace Byte

/-- An ASCII letter in its other case; every other byte as itself. -/
def otherCase (byte : UInt8) : UInt8 :=
  if 65 ≤ byte ∧ byte ≤ 90 then byte + 32
  else if 97 ≤ byte ∧ byte ≤ 122 then byte - 32
  else byte

/-- Folding a byte as a number. -/
theorem toNat_fold (byte : UInt8) :
    (fold byte).toNat =
      if 65 ≤ byte.toNat ∧ byte.toNat ≤ 90 then byte.toNat + 32 else byte.toNat := by
  unfold fold
  simp only [UInt8.le_iff_toNat_le, UInt8.reduceToNat]
  split
  · rw [UInt8.toNat_add]
    simp only [UInt8.reduceToNat]
    omega
  · rfl

/-- The other case of a byte as a number. -/
theorem toNat_otherCase (byte : UInt8) :
    (otherCase byte).toNat =
      if 65 ≤ byte.toNat ∧ byte.toNat ≤ 90 then byte.toNat + 32
      else if 97 ≤ byte.toNat ∧ byte.toNat ≤ 122 then byte.toNat - 32
      else byte.toNat := by
  unfold otherCase
  simp only [UInt8.le_iff_toNat_le, UInt8.reduceToNat]
  split
  · rw [UInt8.toNat_add]
    simp only [UInt8.reduceToNat]
    omega
  · split
    · rw [UInt8.toNat_sub]
      simp only [UInt8.reduceToNat]
      omega
    · rfl

/-- Two bytes fold to the same exactly when they are the same or the cases of one letter. -/
theorem fold_eq_fold_iff {left right : UInt8} :
    fold left = fold right ↔ right = left ∨ right = otherCase left := by
  simp only [← UInt8.toNat_inj, toNat_fold, toNat_otherCase]
  grind

/-- Some letters of the bytes changed their case. -/
def Recased (before after : List UInt8) : Prop :=
  List.Forall₂ (fun byte changed => changed = byte ∨ changed = otherCase byte) before after

instance (before after : List UInt8) : Decidable (Recased before after) :=
  inferInstanceAs (Decidable (List.Forall₂ _ before after))

/-- Bytes whose letters changed their case fold to the same bytes. -/
theorem Recased.map_fold {before after : List UInt8} (recased : Recased before after) :
    after.map fold = before.map fold := by
  induction recased with
  | nil => rfl
  | cons changed _ ih => rw [List.map_cons, List.map_cons, ih, fold_eq_fold_iff.mpr changed]

end Byte

/-! ## Stop sets -/

namespace StopSet

/-- A byte is in a stop set: it counts as the same byte as one of the members. -/
def Stops (rule : CaseRule) (set : StopSet) (byte : UInt8) : Prop :=
  ∃ member ∈ set.members, rule.fold member = rule.fold byte

/-- How many bytes at the front of an input may be passed over without a byte of a stop set. -/
def Clear (rule : CaseRule) (set : StopSet) (input : List UInt8) : Set Nat :=
  {count | count ≤ input.length ∧ ∀ byte ∈ input.take count, ¬set.Stops rule byte}

variable {rule : CaseRule} {set other : StopSet}

/-- Membership is decided by looking at the members. -/
theorem contains_iff_stops {byte : UInt8} :
    set.contains rule byte = true ↔ set.Stops rule byte := by
  simp only [contains_iff, CaseRule.equal_iff, Stops]

/-- A byte outside a stop set is passed over. -/
theorem not_contains_iff {byte : UInt8} :
    (!set.contains rule byte) = true ↔ ¬set.Stops rule byte := by
  rw [Bool.not_eq_true', ← Bool.not_eq_true, contains_iff_stops]

/-- The bytes before the first of a stop set are the longest front without one. -/
theorem isGreatest_clear (rule : CaseRule) (set : StopSet) (input : List UInt8) :
    IsGreatest (set.Clear rule input)
      (input.takeWhile (!set.contains rule ·)).length := by
  have front := List.takeWhile_prefix (l := input) (!set.contains rule ·)
  constructor
  · refine ⟨front.length_le, ?_⟩
    intro byte among
    rw [← List.prefix_iff_eq_take.mp front] at among
    exact not_contains_iff.mp (List.all_eq_true.mp List.all_takeWhile byte among)
  · intro count clear
    obtain ⟨inside, unstopped⟩ := clear
    have all : ∀ byte ∈ input.take count, (!set.contains rule byte) = true := by
      intro byte among
      exact not_contains_iff.mpr (unstopped byte among)
    calc count = (input.take count).length := (List.length_take_of_le inside).symm
      _ ≤ (input.take count ++ (input.drop count).takeWhile (!set.contains rule ·)).length := by
        rw [List.length_append]
        exact Nat.le_add_right _ _
      _ = (input.takeWhile (!set.contains rule ·)).length := by
        rw [← List.takeWhile_append_of_pos all, List.take_append_drop]

/-- Sets with the same members hold the same bytes. -/
theorem contains_eq_of_members (rule : CaseRule)
    (same : ∀ byte, byte ∈ other.members ↔ byte ∈ set.members) (byte : UInt8) :
    other.contains rule byte = set.contains rule byte := by
  apply Bool.eq_iff_iff.mpr
  simp only [contains_iff, same]

/-- A set of both cases of every member holds exactly the bytes that a set holds when folded. -/
theorem contains_both_cases {wide : StopSet}
    (both : ∀ byte, byte ∈ wide.members ↔
      byte ∈ set.members ∨ ∃ member ∈ set.members, byte = Byte.otherCase member) (byte : UInt8) :
    wide.contains .exact byte = set.contains .folded byte := by
  apply Bool.eq_iff_iff.mpr
  simp only [contains_iff_stops, Stops, CaseRule.fold, exists_eq_right, both, Byte.fold_eq_fold_iff]
  constructor
  · rintro (among | ⟨member, among, cased⟩)
    · exact ⟨byte, among, .inl rfl⟩
    · exact ⟨member, among, .inr cased⟩
  · rintro ⟨member, among, same | cased⟩
    · exact .inl (same ▸ among)
    · exact .inr ⟨member, among, cased⟩

/-- Folded sets whose members differ in their case hold bytes that differ in their case. -/
theorem contains_recased (recased : Byte.Recased set.members other.members) {byte changed : UInt8}
    (same : Byte.fold changed = Byte.fold byte) :
    other.contains .folded changed = set.contains .folded byte := by
  apply Bool.eq_iff_iff.mpr
  have counted (given : StopSet) (wanted : UInt8) :
      given.contains .folded wanted = true ↔
        Byte.fold wanted ∈ given.members.map Byte.fold := by
    rw [contains_iff_stops, List.mem_map]
    rfl
  rw [counted, counted, recased.map_fold, same]

end StopSet

/-! ## Scans -/

namespace Scan

/-- A scan for a stop byte passes over the bytes before the first, and over all where there is
none. -/
theorem upTo_eq (stops : StopSet) (rule : CaseRule) (input : List UInt8) :
    upTo stops rule input =
      let passed := input.takeWhile (!stops.contains rule ·)
      if passed.length < input.length then ⟨.ok passed, input.drop passed.length, []⟩
      else ⟨.error .mismatch, [], [.ranOut input.length]⟩ := by
  have parts : input.takeWhile (!stops.contains rule ·) ++
      input.dropWhile (!stops.contains rule ·) = input := List.takeWhile_append_dropWhile
  have left : input.drop (input.takeWhile (!stops.contains rule ·)).length =
      input.dropWhile (!stops.contains rule ·) := by
    have behind : (input.takeWhile (!stops.contains rule ·) ++
        input.dropWhile (!stops.contains rule ·)).drop
          (input.takeWhile (!stops.contains rule ·)).length =
        input.dropWhile (!stops.contains rule ·) := List.drop_left
    rw [parts] at behind
    exact behind
  have counted := congrArg List.length parts
  rw [List.length_append] at counted
  unfold upTo
  dsimp only
  rw [left]
  cases rest : input.dropWhile (!stops.contains rule ·) with
  | nil =>
    rw [rest, List.length_nil] at counted
    rw [if_neg (by omega)]
  | cons stop behind =>
    rw [rest, List.length_cons] at counted
    rw [if_pos (by omega)]

/-- Scans for sets that hold the same bytes are the same. -/
theorem upTo_congr {stops other : StopSet} {rule otherwise : CaseRule}
    (same : ∀ byte, other.contains otherwise byte = stops.contains rule byte) :
    upTo other otherwise = upTo stops rule := by
  funext input
  simp only [upTo, same]

/-- Where letters of a folded set and of the bytes ahead change their case, as many bytes are passed
over. -/
theorem length_passed_recased {stops other : StopSet} {input changed : List UInt8}
    (members : Byte.Recased stops.members other.members) (ahead : Byte.Recased input changed) :
    (changed.takeWhile (!other.contains .folded ·)).length =
      (input.takeWhile (!stops.contains .folded ·)).length := by
  induction ahead with
  | nil => rfl
  | @cons byte cased input changed first _ ih =>
    have same := StopSet.contains_recased members (Byte.fold_eq_fold_iff.mpr first).symm
    rw [List.takeWhile_cons, List.takeWhile_cons, same]
    split
    · rw [List.length_cons, List.length_cons, ih]
    · rfl

end Scan

namespace Session

variable {session : Session}

/-- A scan for a stop byte reads the longest front without one, and fails where that is
everything. -/
theorem perform_upTo (sound : session.tape.Sound) (stops : StopSet) (rule : CaseRule) :
    (Action.upTo stops rule).perform session =
      let count := (session.tape.ahead.takeWhile (!stops.contains rule ·)).length
      let moved := session.readTo (session.window.pos + count)
      if count < session.tape.available then ⟨.done, moved, []⟩
      else ⟨.fault .mismatch, moved, [.ranOut session.tape.available]⟩ := by
  have all : session.tape.ahead.length = session.tape.available := Tape.length_ahead sound.valid
  have front : (session.tape.ahead.takeWhile (!stops.contains rule ·)).length ≤
      session.tape.available := all ▸ (List.takeWhile_prefix _).length_le
  have came : (Action.upTo stops rule).perform session = _ :=
    passing_eq sound (Scan.upTo stops rule) fun _ => .done
  have found := Scan.upTo_eq stops rule session.tape.ahead
  dsimp only at found ⊢
  rw [all] at found came
  by_cases inside : (session.tape.ahead.takeWhile (!stops.contains rule ·)).length <
      session.tape.available
  · rw [if_pos inside] at found ⊢
    rw [came, found, List.length_drop, all, Nat.sub_sub_self front]
    rfl
  · rw [if_neg inside] at found ⊢
    have everything : session.tape.available =
        (session.tape.ahead.takeWhile (!stops.contains rule ·)).length := by omega
    rw [came, found, List.length_nil, Nat.sub_zero, ← everything]
    rfl

/-- A scan for a stop byte lands at the stop byte, or at the stop of the window and fails. -/
theorem upTo_lands (sound : session.tape.Sound) (stops : StopSet) (rule : CaseRule) :
    let step := (Action.upTo stops rule).perform session
    ∃ count, IsGreatest (stops.Clear rule session.tape.ahead) count ∧
      if count < session.tape.available then
        step.answer = .done ∧ step.session = session.readTo (session.window.pos + count)
      else step.answer = .fault .mismatch ∧ step.session = session.readTo session.window.stop := by
  intro step
  have greatest := stops.isGreatest_clear rule session.tape.ahead
  have came := perform_upTo sound stops rule
  refine ⟨_, greatest, ?_⟩
  dsimp only at came
  split <;> rename_i inside
  · rw [if_pos inside] at came
    exact ⟨congrArg Step.answer came, congrArg Step.session came⟩
  · rw [if_neg inside] at came
    have reached : session.window.pos ≤ session.window.stop := sound.valid.pos_le_stop
    have front := greatest.1.1
    rw [Tape.length_ahead sound.valid] at front
    have stop : session.window.pos +
        (session.tape.ahead.takeWhile (!stops.contains rule ·)).length = session.window.stop := by
      change _ ≤ session.window.stop - session.window.pos at front
      change ¬_ < session.window.stop - session.window.pos at inside
      omega
    rw [← stop]
    exact ⟨congrArg Step.answer came, congrArg Step.session came⟩

/-- Where letters change their case a folded scan answers the same and reads as far. -/
theorem upTo_recased (sound : session.tape.Sound) {changed : Session}
    (changed_sound : changed.tape.Sound) {stops other : StopSet}
    (members : Byte.Recased stops.members other.members)
    (ahead : Byte.Recased session.tape.ahead changed.tape.ahead) :
    let folded := (Action.upTo stops .folded).perform session
    let recased := (Action.upTo other .folded).perform changed
    recased.answer = folded.answer ∧ recased.notes = folded.notes ∧
      ∃ count, folded.session = session.readTo (session.window.pos + count) ∧
        recased.session = changed.readTo (changed.window.pos + count) := by
  have passed := Scan.length_passed_recased members ahead
  have available : changed.tape.available = session.tape.available := by
    rw [← Tape.length_ahead sound.valid, ← Tape.length_ahead changed_sound.valid]
    exact (List.Forall₂.length_eq ahead).symm
  dsimp only
  rw [perform_upTo sound, perform_upTo changed_sound]
  dsimp only
  rw [passed, available]
  split <;> exact ⟨rfl, rfl, _, rfl, rfl⟩

end Session

end WireScan
