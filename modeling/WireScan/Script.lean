import WireScan.Session

/-!
# Scripts

A script is what a reader does with a buffer: actions in order, and stretches of them under a
guard, which may hold guarded stretches of their own. Running one records every answer with the
window and the notes after it. A strict stretch ends at its first refused action and its guard is
then dropped, whatever ending it asked for; what happens inside guards of its own does not count
(`Script.run`).
-/
namespace WireScan

/-- What a reader does. Each form carries what is done after it. -/
inductive Script
  /-- Nothing more. -/
  | done
  /-- An action. -/
  | act (action : Action) (next : Script)
  /-- A stretch under a guard of its own. -/
  | guarded (strict : Bool) (body : Script) (ending : Ending) (next : Script)
deriving DecidableEq, Repr

/-- What running a script recorded. Each form carries what was recorded after it. -/
inductive Transcript
  /-- Nothing more. -/
  | done
  /-- The answer to an action, the window after it and what it noted. -/
  | acted (answer : Answer) (window : Window) (notes : List Note) (next : Transcript)
  /-- A guarded stretch: what it recorded, how its guard ended, the window after that and what
  the end noted. -/
  | guarded (body : Transcript) (ending : Ending) (window : Window) (notes : List Note)
    (next : Transcript)
deriving DecidableEq, Repr

/-- What running a script came to. -/
structure Run where
  /-- What was recorded. -/
  transcript : Transcript
  /-- The session after the script. -/
  session : Session
  /-- The script ended early, at a refused action. -/
  failed : Bool
deriving DecidableEq, Repr

/-- Run a script, up to the first refused action if it is strict. -/
def Script.run (strict : Bool) : Script → Session → Run
  | .done, session => ⟨.done, session, false⟩
  | .act action next, session =>
    let step := action.perform session
    let acted := Transcript.acted step.answer step.session.window step.notes
    if strict ∧ step.answer.isFault then ⟨acted .done, step.session, true⟩
    else
      let later := next.run strict step.session
      { later with transcript := acted later.transcript }
  | .guarded strictly body asked next, session =>
    let inner := body.run strictly session.openGuard
    let ending := if inner.failed then .drop else asked
    let (closed, notes) := inner.session.closeGuard ending
    let later := next.run strict closed
    { later with
      transcript := .guarded inner.transcript ending closed.window notes later.transcript }

end WireScan
