import WireScan.Proofs.Timeline

/-!
# Guards that undo what was done under them

A guard that is dropped puts the window back that it found, unless it was disarmed. The window is
confined to the store when it is put back, so it comes back as it was only because whatever happens
under a guard keeps the store (`Session.KeepsStore`) and the window lay inside the store at the
start (`Session.Sound`). Neither the guards inside nor how they ended make a difference.
-/
namespace WireScan

namespace Script

variable {strict : Bool} {body : Script} {asked : Ending} {session : Session}

/-- At the end of a guarded stretch its guard is the innermost: armed unless the stretch itself
disarmed it. -/
theorem inner_guards (strict : Bool) (body : Script) (session : Session) :
    (body.run strict session.openGuard).session.guards =
      ⟨session.window, !(body.performed strict session.openGuard).contains .disarm⟩ ::
        session.guards := by
  rw [run_guards]
  rfl

/-- A dropped guard that was not disarmed leaves the buffer that it found. -/
theorem closing_buffer (valid : session.tape.Valid)
    (dropped : asked = .drop ∨ (body.run strict session.openGuard).failed = true)
    (armed : .disarm ∉ body.performed strict session.openGuard) :
    (closing strict body asked session).buffer = session.buffer := by
  have found := inner_guards strict body session
  have stays : (body.performed strict session.openGuard).contains .disarm = false := by
    rw [← Bool.not_eq_true, List.contains_iff_mem]
    exact armed
  have drops : (if (body.run strict session.openGuard).failed then Ending.drop else asked) =
      .drop := by
    split
    · rfl
    · rename_i succeeded
      exact dropped.resolve_right succeeded
  rw [stays] at found
  rw [closing, drops, Session.closeGuard_cons found, if_pos ⟨rfl, rfl⟩]
  have kept : session.KeepsStore (body.run strict session.openGuard).session :=
    (Session.KeepsStore.of_buffer_eq rfl).trans (body.run_keepsStore strict session.openGuard)
  exact kept.restore_buffer valid

/-- **An armed guard undoes all that was done under it.** On every reached session a script may run
under a guard: whatever it does, whatever guards it opens and however those end, if the guard is
dropped, at its end or where the script fails, and was not disarmed, then the buffer is the one that
the guard found, and so are the guards that were open. -/
theorem armed_guard_restores {session : Session} (reached : session.Reached) {strict : Bool}
    {body : Script} {asked : Ending}
    (dropped : asked = .drop ∨ (body.run strict session.openGuard).failed = true)
    (armed : .disarm ∉ body.performed strict session.openGuard) (outer : Bool) :
    let after := ((Script.guarded strict body asked .done).run outer session).session
    after.buffer = session.buffer ∧ after.guards = session.guards := by
  intro after
  have ended : after = closing strict body asked session := rfl
  rw [ended]
  exact ⟨closing_buffer reached.sound.buffer.tape.valid dropped armed,
    closing_guards strict body asked session⟩

/-- Under a guard inside another one, the window is emptied under a third that is disarmed and
committed, and then the script fails. All of it is undone. -/
theorem armed_guard_restores_after_commit :
    let session : Session :=
      ⟨.growing ⟨⟨#[1, 2, 3, 4], ⟨0, 1, 4, 0⟩⟩, 8, 16⟩, [⟨⟨0, 0, 4, 0⟩, true⟩], []⟩
    let body : Script :=
      .act (.advance 1) (.guarded false (.act .reset (.act .disarm .done)) .commit
        (.act (.upTo (.byte 9) .exact) .done))
    (body.run true session.openGuard).session.window = ⟨4, 4, 4, 1⟩ ∧
      ((Script.guarded true body .commit .done).run false session).session.window =
        ⟨0, 1, 4, 0⟩ := by
  intro session body
  have reached : session.Reached :=
    ⟨.growing (.empty 8 16), [.owner (.write [1, 2, 3, 4]), .opened, .reader (.advance 1)],
      .growing 8 16 (by decide), ⟨rfl, trivial, trivial, trivial⟩, by decide +kernel⟩
  have dropped : Ending.commit = .drop ∨ (body.run true session.openGuard).failed = true :=
    .inr (by decide +kernel)
  have armed : .disarm ∉ body.performed true session.openGuard := by decide +kernel
  have restored := armed_guard_restores reached dropped armed false
  exact ⟨by decide +kernel, congrArg Buffer.window restored.1⟩

end Script

/-- Where no head is read from a valid tape, the tape is as a guard leaves it that was open while
the head was scanned. -/
theorem Tape.readHead_restores {tape : Tape} (valid : tape.Valid)
    (unread : ∀ head, tape.readHead.result ≠ .ok (some head)) :
    tape.readHead.tape = (tape.scan Head.scan).tape.restore tape.window := by
  have back : (tape.scan Head.scan).tape.restore tape.window = tape := restore_eq valid
  rw [back]
  unfold readHead at unread ⊢
  match read : tape.scan Head.scan with
  | ⟨.ok head, reached, notes⟩ =>
    rw [read] at unread
    exact absurd rfl (unread head)
  | ⟨.error fault, reached, notes⟩ =>
    dsimp only
    split <;> rfl

end WireScan
