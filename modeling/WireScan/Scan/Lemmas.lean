import WireScan.Scan

/-!
# Laws of scans

Scans in sequence may be grouped either way (`Scan.bind_assoc`). What a scan comes to is settled
unless it lacked data, and a sequence settles to what its second scan settles to over the bytes
that the first one left (`Scan.settled?_bind`). The elementary scans are described by the bytes
that lie ahead of them: `Scan.exactly` by the three ways those bytes compare with the given ones,
and `Scan.upTo` a single byte by the first byte ahead.
-/
namespace WireScan

/-- What a scan came to that no later byte changes: nothing where it lacked data. -/
def Outcome.settled? {α : Type} (outcome : Outcome α) : Option (Except Fault α) :=
  match outcome.result with
  | .ok value => some (.ok value)
  | .error fault => if fault.wantsMore then none else some (.error fault)

namespace Scan

variable {α β γ : Type}

/-- Sequences of scans may be grouped either way. -/
theorem bind_assoc (first : Scan α) (second : α → Scan β) (third : β → Scan γ) :
    (first >>= second) >>= third = first >>= fun value => second value >>= third := by
  funext input
  match read : first input with
  | ⟨.error fault, rest, notes⟩ => rw [bind_error read, bind_error (bind_error read)]
  | ⟨.ok value, rest, notes⟩ =>
    rw [bind_ok read]
    match later : second value rest with
    | ⟨.error fault, left, noted⟩ =>
      have whole : (first >>= second) input = ⟨.error fault, left, notes ++ noted⟩ := by
        rw [bind_ok read, later]
      rw [bind_error whole, bind_error later]
    | ⟨.ok result, left, noted⟩ =>
      have whole : (first >>= second) input = ⟨.ok result, left, notes ++ noted⟩ := by
        rw [bind_ok read, later]
      rw [bind_ok whole, bind_ok later]
      simp [List.append_assoc]

/-- What a sequence settles to is what its second scan settles to over the bytes left. -/
theorem settled?_bind (first : Scan α) (second : α → Scan β) (input : List UInt8) :
    ((first >>= second) input).settled? =
      match first input with
      | ⟨.ok value, rest, _⟩ => (second value rest).settled?
      | ⟨.error fault, _, _⟩ => if fault.wantsMore then none else some (.error fault) := by
  match read : first input with
  | ⟨.error fault, rest, notes⟩ => rw [bind_error read]; rfl
  | ⟨.ok value, rest, notes⟩ => rw [bind_ok read]; rfl

/-- Bytes that lie ahead as given are read. -/
theorem exactly_append (expected rest : List UInt8) :
    exactly expected (expected ++ rest) = ⟨.ok (), rest, []⟩ := by
  have ahead : expected.isPrefixOf (expected ++ rest) = true :=
    List.isPrefixOf_iff_prefix.mpr (List.prefix_append _ _)
  rw [exactly, if_pos ahead, List.drop_left]

/-- Fewer bytes than given are a lack of data. -/
theorem exactly_short {expected input : List UInt8} (short : input.length < expected.length) :
    exactly expected input = ⟨.error (.tooFew expected.length input.length), input, []⟩ := by
  have none : ¬expected.isPrefixOf input = true := fun ahead =>
    Nat.not_lt.mpr (List.isPrefixOf_iff_prefix.mp ahead).length_le short
  rw [exactly, if_neg none, if_pos short]

/-- As many other bytes as given are a mismatch. -/
theorem exactly_other {expected found : List UInt8} (long : found.length = expected.length)
    (other : found ≠ expected) (rest : List UInt8) :
    exactly expected (found ++ rest) = ⟨.error .mismatch, found ++ rest, []⟩ := by
  have none : ¬expected.isPrefixOf (found ++ rest) = true := fun ahead => by
    obtain ⟨tail, parts⟩ := List.isPrefixOf_iff_prefix.mp ahead
    exact other (List.append_inj parts long.symm).1.symm
  have enough : ¬(found ++ rest).length < expected.length := by
    rw [List.length_append]
    omega
  rw [exactly, if_neg none, if_neg enough]

/-- At a stop byte nothing is passed over. -/
theorem upTo_byte_self (close : UInt8) (input : List UInt8) :
    upTo (.byte close) .exact (close :: input) = ⟨.ok [], close :: input, []⟩ := by
  simp [upTo, StopSet.contains, CaseRule.equal]

/-- A byte before the stop byte is passed over. -/
theorem upTo_byte_cons {close next : UInt8} (other : next ≠ close) (input : List UInt8) :
    upTo (.byte close) .exact (next :: input) =
      match upTo (.byte close) .exact input with
      | ⟨.ok bytes, rest, notes⟩ => ⟨.ok (next :: bytes), rest, notes⟩
      | ⟨.error fault, rest, _⟩ => ⟨.error fault, rest, [.ranOut (input.length + 1)]⟩ := by
  have passed : StopSet.contains .exact next (.byte close) = false := by
    simp [StopSet.contains, CaseRule.equal, CaseRule.fold, Ne.symm other]
  simp only [upTo, List.dropWhile_cons, List.takeWhile_cons, passed]
  simp only [Bool.not_false, if_true, List.length_cons]
  split <;> rename_i found
  · rfl
  · rfl

/-- What is left after bytes up to a stop byte begins with that byte. -/
theorem upTo_byte_rest {close : UInt8} {input bytes rest : List UInt8} {notes : List Note}
    (found : upTo (.byte close) .exact input = ⟨.ok bytes, rest, notes⟩) :
    ∃ tail, rest = close :: tail := by
  induction input generalizing bytes rest notes with
  | nil => cases found
  | cons next input ih =>
    by_cases closes : next = close
    · subst closes
      rw [upTo_byte_self] at found
      cases found
      exact ⟨input, rfl⟩
    · rw [upTo_byte_cons closes] at found
      match later : upTo (.byte close) .exact input with
      | ⟨.error _, _, _⟩ => rw [later] at found; cases found
      | ⟨.ok _, _, _⟩ =>
        rw [later] at found
        cases found
        exact ih later

end Scan

end WireScan
