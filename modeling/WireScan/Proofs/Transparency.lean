import WireScan.Proofs.Rollback

/-!
# Guards that make no difference

A stretch under a guard that is committed, or that was disarmed at any time, goes as it goes without
the guard (`Script.kept_eq_bare`), and after the guard was asked to put the window back a stretch
goes as it goes from where the guard was opened (`Script.restart_eq_bare`). Either way two runs are
compared whose sessions hold the same buffer and have other guards open (`Session.Echoes`). One
script comes to the same in both as long as the innermost guards are the same and it asks about no
mark that only one of them has (`Session.Echoes.run`). The guards that a script opens on its own are
always the same, so only what it does to the guard it runs under has to be left out
(`Session.Echoes.run_bare`).
-/
namespace WireScan

/-! ## What a script asks of its surroundings -/

namespace Action

/-- The action is about the guard that it is performed under. -/
def toGuard : Action → Bool
  | .rollBack | .disarm | .savedWindow => true
  | _ => false

/-- The names of the marks that an action asks about. -/
def asks : Action → List String
  | .markStart name | .markStop name | .markSize name | .markBytes name | .markText name => [name]
  | .sameMark left right => [left, right]
  | _ => []

/-- The name of the mark that an action takes. -/
def takes : Action → List String
  | .mark name => [name]
  | _ => []

end Action

namespace Event

/-- The names of the marks that a reader asks about. -/
def asks : Event → List String
  | reader action => action.asks
  | _ => []

/-- The name of the mark that a reader takes. -/
def takes : Event → List String
  | reader action => action.takes
  | _ => []

/-- The names of the marks that are asked about and were not taken in the events before. -/
def borrows : List Event → List String
  | [] => []
  | event :: later => event.asks ++ (borrows later).filter (· ∉ event.takes)

/-- A mark is borrowed where it is asked about, or later without being taken. -/
theorem mem_borrows_cons {event : Event} {later : List Event} {name : String} :
    name ∈ borrows (event :: later) ↔
      name ∈ event.asks ∨ name ∈ borrows later ∧ name ∉ event.takes := by
  simp [borrows]

/-- An event without marks makes no difference to what is borrowed. -/
theorem borrows_skip {event : Event} (unasked : event.asks = []) (untaken : event.takes = [])
    (later : List Event) : borrows (event :: later) = borrows later := by
  simp [borrows, unasked, untaken]

/-- An action about a guard makes no difference to what is borrowed. -/
theorem borrows_toGuard {action : Action} (about : action.toGuard = true) (later : List Event) :
    borrows (.reader action :: later) = borrows later := by
  cases action with
  | rollBack | disarm | savedWindow => exact borrows_skip rfl rfl later
  | _ => cases about

end Event

namespace Script

/-- A script without what it does to the guard that it runs under. -/
def bare : Script → Script
  | .done => .done
  | .act action next => if action.toGuard then next.bare else .act action next.bare
  | .guarded strict body asked next => .guarded strict body asked next.bare

/-- One script and then another. -/
def append : Script → Script → Script
  | .done, later => later
  | .act action next, later => .act action (next.append later)
  | .guarded strict body asked next, later => .guarded strict body asked (next.append later)

end Script

namespace Transcript

/-- What a script recorded, without what it did to the guard that it runs under. -/
def bare : Script → Transcript → Transcript
  | .act action next, .acted answer window notes later =>
    if action.toGuard then later.bare next else .acted answer window notes (later.bare next)
  | .guarded _ _ _ next, .guarded inner ending window notes later =>
    .guarded inner ending window notes (later.bare next)
  | _, recorded => recorded

/-- Where nothing was recorded nothing is left out. -/
theorem bare_done (script : Script) : done.bare script = done := by
  cases script <;> rfl

/-- One record and then another. -/
def append : Transcript → Transcript → Transcript
  | .done, later => later
  | .acted answer window notes next, later => .acted answer window notes (next.append later)
  | .guarded inner ending window notes next, later =>
    .guarded inner ending window notes (next.append later)

end Transcript

/-! ## Sessions that hold the same buffer -/

namespace Session

/-- Two sessions hold the same buffer and the same marks of the names that are needed. The marks are
those that they had, and others that were taken in both. -/
structure Echoes (old older : List (String × Mark)) (needed : List String)
    (left right : Session) : Prop where
  /-- The buffers are the same. -/
  buffer : left.buffer = right.buffer
  /-- The same marks were taken after the earlier ones. -/
  marks : ∃ taken, left.marks = taken ++ old ∧ right.marks = taken ++ older
  /-- The marks that are needed are the same. -/
  lookup : ∀ name ∈ needed, left.marks.lookup name = right.marks.lookup name

end Session

/-- Two steps come to the same, and the sessions after them still hold the same buffer. -/
structure Step.Echoes (old older : List (String × Mark)) (needed : List String)
    (first second : Step) : Prop where
  /-- The answers are the same. -/
  answer : first.answer = second.answer
  /-- The same is noted. -/
  notes : first.notes = second.notes
  /-- The sessions hold the same buffer. -/
  session : first.session.Echoes old older needed second.session

/-- An action that is neither about a guard nor about marks does to the buffer what it does where
there are none of them. -/
theorem Action.perform_alone {action : Action} (other : action.toGuard = false)
    (unasked : action.asks = []) (session : Session) :
    let alone := action.perform (.ofBuffer session.buffer)
    action.perform session =
      ⟨alone.answer,
        ⟨alone.session.buffer, session.guards, alone.session.marks ++ session.marks⟩,
        alone.notes⟩ := by
  intro alone
  cases action with
  | advance count =>
    have same : session.tape = (Session.ofBuffer session.buffer).tape := rfl
    simp only [alone, perform, Session.moving, same]
    split <;> rfl
  | markStart | markStop | markSize | markBytes | markText | sameMark => cases unasked
  | rollBack | disarm | savedWindow => cases other
  | _ => rfl

/-- A mark that an action does not take is found after it as before. -/
theorem Action.lookup_perform {action : Action} {name : String} (untaken : name ∉ action.takes)
    (session : Session) :
    (action.perform session).session.marks.lookup name = session.marks.lookup name := by
  cases action with
  | mark other =>
    have differs : ¬name = other := fun same => untaken (List.mem_singleton.mpr same)
    rw [perform, List.lookup_cons, beq_eq_false_iff_ne.mpr differs]
  | advance count =>
    simp only [perform, Session.moving]
    split <;> rfl
  | rollBack | disarm =>
    simp only [perform]
    split <;> rfl
  | _ => rfl

namespace Session.Echoes

variable {old older : List (String × Mark)} {needed : List String} {left right : Session}

/-- The tapes are the same. -/
theorem tape (echoes : left.Echoes old older needed right) : left.tape = right.tape :=
  congrArg Buffer.tape echoes.buffer

/-- The windows are the same. -/
theorem window (echoes : left.Echoes old older needed right) : left.window = right.window :=
  congrArg Tape.window echoes.tape

/-- Fewer marks may be needed. -/
theorem mono (echoes : left.Echoes old older needed right) {fewer : List String}
    (among : ∀ name ∈ fewer, name ∈ needed) : left.Echoes old older fewer right :=
  ⟨echoes.buffer, echoes.marks, fun name asked => echoes.lookup name (among name asked)⟩

/-- Other guards may be open. -/
theorem guarded (echoes : left.Echoes old older needed right) (guards others : List Guard) :
    ({ left with guards } : Session).Echoes old older needed { right with guards := others } :=
  ⟨echoes.buffer, echoes.marks, echoes.lookup⟩

/-- The same may be done to both tapes. -/
theorem withTape (echoes : left.Echoes old older needed right) (change : Tape → Tape) :
    (left.withTape (change left.tape)).Echoes old older needed
      (right.withTape (change right.tape)) := by
  refine ⟨?_, echoes.marks, echoes.lookup⟩
  rw [Session.withTape, Session.withTape, echoes.tape, echoes.buffer]

/-- A question about a mark that is needed is answered alike. -/
theorem marking (echoes : left.Echoes old older needed right) {name : String}
    (asked : name ∈ needed) (answer : Mark → Answer) {later : List String}
    (among : ∀ name ∈ later, name ∈ needed) :
    (left.marking name answer).Echoes old older later (right.marking name answer) := by
  refine ⟨?_, rfl, echoes.mono among⟩
  simp only [Session.marking, Session.answering, echoes.lookup name asked]

/-- An action that asks about no mark comes to the same. A mark that it takes is the same in
both. -/
theorem perform_unasked {action : Action} {later : List Event}
    (echoes : left.Echoes old older (Event.borrows (.reader action :: later)) right)
    (other : action.toGuard = false) (unasked : action.asks = []) :
    (action.perform left).Echoes old older (Event.borrows later) (action.perform right) := by
  obtain ⟨taken, mine, yours⟩ := echoes.marks
  rw [Action.perform_alone other unasked left, Action.perform_alone other unasked right,
    echoes.buffer]
  refine ⟨rfl, rfl, rfl, ?_, fun name asked => ?_⟩
  · refine ⟨(action.perform (.ofBuffer right.buffer)).session.marks ++ taken, ?_, ?_⟩
    · rw [mine, List.append_assoc]
    · rw [yours, List.append_assoc]
  · rw [List.lookup_append, List.lookup_append]
    by_cases again : name ∈ action.takes
    · cases action with
      | mark marked =>
        have same : name = marked := List.mem_singleton.mp again
        rw [Action.perform, same, Session.ofBuffer, List.lookup_cons_self, Option.some_or,
          Option.some_or]
      | _ => cases again
    · rw [echoes.lookup name (Event.mem_borrows_cons.mpr (.inr ⟨asked, again⟩))]

/-- An action that asks about marks that are needed is answered alike. -/
theorem perform_asking {action : Action} {later : List Event}
    (echoes : left.Echoes old older (Event.borrows (.reader action :: later)) right)
    (asking : action.asks ≠ []) :
    (action.perform left).Echoes old older (Event.borrows later) (action.perform right) := by
  have needs : ∀ name ∈ action.asks, name ∈ Event.borrows (.reader action :: later) :=
    fun name among => Event.mem_borrows_cons.mpr (.inl among)
  have kept : ∀ name ∈ Event.borrows later, name ∈ Event.borrows (.reader action :: later) := by
    intro name among
    apply Event.mem_borrows_cons.mpr
    cases action with
    | mark => exact absurd rfl asking
    | _ => exact .inr ⟨among, List.not_mem_nil⟩
  cases action with
  | markStart name | markStop name | markSize name | markBytes name | markText name =>
    simp only [Action.perform, echoes.tape]
    exact echoes.marking (needs name List.mem_cons_self) _ kept
  | sameMark one two =>
    have second := echoes.lookup two (needs two (List.mem_cons_of_mem _ List.mem_cons_self))
    simp only [Action.perform, second]
    exact echoes.marking (needs one List.mem_cons_self) _ kept
  | _ => exact absurd rfl asking

/-- An action that is not about a guard comes to the same, if the marks it asks about are
needed. -/
theorem perform {action : Action} {later : List Event}
    (echoes : left.Echoes old older (Event.borrows (.reader action :: later)) right)
    (other : action.toGuard = false) :
    (action.perform left).Echoes old older (Event.borrows later) (action.perform right) := by
  by_cases unasked : action.asks = []
  · exact echoes.perform_unasked other unasked
  · exact echoes.perform_asking unasked

/-- Of two lists of guards that have the same innermost guard both are empty or none is. -/
theorem top_cases (top : left.guards.head? = right.guards.head?) :
    left.guards = [] ∧ right.guards = [] ∨
      ∃ guard outer others, left.guards = guard :: outer ∧ right.guards = guard :: others := by
  cases mine : left.guards with
  | nil =>
    rw [mine, List.head?_nil] at top
    exact .inl ⟨rfl, List.head?_eq_none_iff.mp top.symm⟩
  | cons guard outer =>
    rw [mine, List.head?_cons] at top
    obtain ⟨others, yours⟩ := List.head?_eq_some_iff.mp top.symm
    exact .inr ⟨guard, outer, others, rfl, yours⟩

/-- An action about a guard comes to the same under guards that are the same. -/
theorem perform_guard {action : Action} (echoes : left.Echoes old older needed right)
    (about : action.toGuard = true) (top : left.guards.head? = right.guards.head?) :
    (action.perform left).Echoes old older needed (action.perform right) := by
  cases action with
  | savedWindow =>
    have same := congrArg (fun found => (found.map Guard.saved).elim Answer.undefined .window) top
    exact ⟨same, rfl, echoes⟩
  | rollBack =>
    simp only [Action.perform]
    obtain ⟨mine, yours⟩ | ⟨guard, outer, others, mine, yours⟩ := top_cases top
    · rw [mine, yours]
      exact ⟨rfl, rfl, echoes⟩
    · rw [mine, yours, echoes.tape]
      exact ⟨rfl, rfl, echoes.withTape (.restore guard.saved)⟩
  | disarm =>
    simp only [Action.perform]
    obtain ⟨mine, yours⟩ | ⟨guard, outer, others, mine, yours⟩ := top_cases top
    · rw [mine, yours]
      exact ⟨rfl, rfl, echoes⟩
    · rw [mine, yours]
      exact ⟨rfl, rfl, echoes.guarded _ _⟩
  | _ => cases about

/-- The innermost guard ends alike. -/
theorem closeGuard (echoes : left.Echoes old older needed right)
    (top : left.guards.head? = right.guards.head?) (ending : Ending) :
    (left.closeGuard ending).1.Echoes old older needed (right.closeGuard ending).1 ∧
      (left.closeGuard ending).2 = (right.closeGuard ending).2 := by
  obtain ⟨mine, yours⟩ | ⟨guard, outer, others, mine, yours⟩ := top_cases top
  · rw [Session.closeGuard_nil mine, Session.closeGuard_nil yours]
    exact ⟨echoes, rfl⟩
  · simp only [Session.closeGuard, mine, yours, echoes.window]
    split
    · exact ⟨(echoes.guarded outer others).withTape (.restore guard.saved), rfl⟩
    · exact ⟨echoes.guarded outer others, rfl⟩

end Session.Echoes

/-! ## Runs -/

/-- Two runs come to the same, and the sessions after them still hold the same buffer. -/
structure Run.Echoes (old older : List (String × Mark)) (needed : List String)
    (first second : Run) : Prop where
  /-- The same is recorded. -/
  transcript : first.transcript = second.transcript
  /-- Both end early or none does. -/
  failed : first.failed = second.failed
  /-- The sessions hold the same buffer. -/
  session : first.session.Echoes old older needed second.session

/-- What running a script with a guarded stretch comes to. -/
theorem Script.run_guarded_eq (strict strictly : Bool) (body : Script) (asked : Ending)
    (next : Script) (session : Session) :
    (Script.guarded strictly body asked next).run strict session =
      let inner := body.run strictly session.openGuard
      let ending := if inner.failed then .drop else asked
      let closed := closing strictly body asked session
      let later := next.run strict closed
      { later with
        transcript := .guarded inner.transcript ending closed.window
          (inner.session.closeGuard ending).2 later.transcript } := rfl

namespace Session.Echoes

variable {old older : List (String × Mark)} {needed : List String} {left right : Session}

/-- A guard may be opened on both. -/
theorem openGuard (echoes : left.Echoes old older needed right) :
    left.openGuard.Echoes old older needed right.openGuard ∧
      left.openGuard.guards.head? = right.openGuard.guards.head? := by
  refine ⟨echoes.guarded _ _, ?_⟩
  simp only [Session.openGuard, List.head?_cons, echoes.window]

/-- Any action comes to the same under guards that are the same, and leaves them the same. -/
theorem perform_under {action : Action} {later : List Event}
    (echoes : left.Echoes old older (Event.borrows (.reader action :: later)) right)
    (top : left.guards.head? = right.guards.head?) :
    (action.perform left).Echoes old older (Event.borrows later) (action.perform right) ∧
      (action.perform left).session.guards.head? =
        (action.perform right).session.guards.head? := by
  constructor
  · by_cases about : action.toGuard = true
    · rw [Event.borrows_toGuard about] at echoes
      exact echoes.perform_guard about top
    · exact echoes.perform (Bool.eq_false_iff.mpr about)
  · rw [Action.perform_guards, Action.perform_guards, List.head?_modifyHead,
      List.head?_modifyHead, top]

/-- Before a guarded stretch its guard is opened on both. -/
theorem enter {strict strictly : Bool} {body next : Script} {asked : Ending} {rest : List Event}
    (echoes : left.Echoes old older
      (Event.borrows ((Script.guarded strictly body asked next).events strict left ++ rest))
      right) :
    left.openGuard.Echoes old older
        (Event.borrows (body.events strictly left.openGuard ++
          .closed (if (body.run strictly left.openGuard).failed then .drop else asked) ::
            (next.events strict (Script.closing strictly body asked left) ++ rest)))
        right.openGuard ∧
      left.openGuard.guards.head? = right.openGuard.guards.head? := by
  rw [Script.events, List.cons_append, List.cons_append, List.append_assoc,
    Event.borrows_skip rfl rfl] at echoes
  exact echoes.openGuard

/-- After a guarded stretch that came to the same on both its guard ends alike. -/
theorem closing {strict : Bool} {body : Script} (asked : Ending) {ending : Ending}
    {rest : List Event}
    (inner : (body.run strict left.openGuard).Echoes old older
      (Event.borrows (.closed ending :: rest)) (body.run strict right.openGuard))
    (top : (body.run strict left.openGuard).session.guards.head? =
      (body.run strict right.openGuard).session.guards.head?) :
    (Script.closing strict body asked left).Echoes old older (Event.borrows rest)
        (Script.closing strict body asked right) ∧
      ((body.run strict left.openGuard).session.closeGuard
          (if (body.run strict left.openGuard).failed then .drop else asked)).2 =
        ((body.run strict right.openGuard).session.closeGuard
          (if (body.run strict right.openGuard).failed then .drop else asked)).2 := by
  have echoes := inner.session
  rw [Event.borrows_skip rfl rfl] at echoes
  rw [Script.closing, Script.closing, inner.failed]
  exact echoes.closeGuard top _

/-- **A script comes to the same under guards that are the same,** if the marks that it borrows are
needed. By induction on the script. -/
theorem run (strict : Bool) (script : Script) {rest : List Event}
    (echoes : left.Echoes old older (Event.borrows (script.events strict left ++ rest)) right)
    (top : left.guards.head? = right.guards.head?) :
    (script.run strict left).Echoes old older (Event.borrows rest) (script.run strict right) ∧
      (script.run strict left).session.guards.head? =
        (script.run strict right).session.guards.head? := by
  induction script generalizing strict left right rest with
  | done => exact ⟨⟨rfl, rfl, echoes⟩, top⟩
  | act action next ih =>
    rw [Script.events] at echoes
    rw [Script.run, Script.run]
    dsimp only at echoes ⊢
    by_cases stops : strict = true ∧ (action.perform left).answer.isFault = true
    · rw [if_pos stops] at echoes
      obtain ⟨stepped, under⟩ := echoes.perform_under top
      rw [← stepped.answer, if_pos stops, if_pos stops, stepped.notes, stepped.session.window]
      exact ⟨⟨rfl, rfl, stepped.session⟩, under⟩
    · rw [if_neg stops] at echoes
      obtain ⟨stepped, under⟩ := echoes.perform_under top
      obtain ⟨later, below⟩ := ih strict stepped.session under
      rw [← stepped.answer, if_neg stops, if_neg stops, stepped.notes, stepped.session.window,
        later.transcript]
      exact ⟨⟨rfl, later.failed, later.session⟩, below⟩
  | guarded strictly body asked next body_ih next_ih =>
    obtain ⟨opened, first⟩ := echoes.enter
    obtain ⟨inner, last⟩ := body_ih strictly opened first
    obtain ⟨closed, noted⟩ := closing asked inner last
    have under : (Script.closing strictly body asked left).guards.head? =
        (Script.closing strictly body asked right).guards.head? := by
      rw [Script.closing_guards, Script.closing_guards, top]
    obtain ⟨later, below⟩ := next_ih strict closed under
    rw [Script.run_guarded_eq, Script.run_guarded_eq]
    dsimp only
    rw [inner.transcript, noted, inner.failed, closed.window, later.transcript]
    exact ⟨⟨rfl, later.failed, later.session⟩, below⟩

/-- An action that disarms the guard or asks for its window is not refused and leaves the
buffer. -/
theorem perform_own {action : Action} (echoes : left.Echoes old older needed right)
    (about : action.toGuard = true) (unreturned : action ≠ .rollBack) (guarded : left.guards ≠ []) :
    (action.perform left).answer.isFault = false ∧
      (action.perform left).session.Echoes old older needed right := by
  obtain ⟨guard, outer, found⟩ := List.exists_cons_of_ne_nil guarded
  cases action with
  | rollBack => exact absurd rfl unreturned
  | disarm =>
    simp only [Action.perform, found]
    exact ⟨rfl, echoes.guarded _ right.guards⟩
  | savedWindow =>
    simp only [Action.perform, found]
    exact ⟨rfl, echoes⟩
  | _ => cases about

/-- An action keeps a guard open. -/
theorem guards_perform (action : Action) (guarded : left.guards ≠ []) :
    (action.perform left).session.guards ≠ [] := by
  rw [Action.perform_guards]
  exact fun none => guarded (List.modifyHead_eq_nil_iff.mp none)

/-- **A script comes to the same under a guard that is left alone,** whatever other guards are open,
as without what it does to that guard. -/
theorem run_bare (strict : Bool) (script : Script) {rest : List Event}
    (echoes : left.Echoes old older (Event.borrows (script.events strict left ++ rest)) right)
    (unreturned : .rollBack ∉ script.performed strict left) (guarded : left.guards ≠ []) :
    (script.run strict left).transcript.bare script = (script.bare.run strict right).transcript ∧
      (script.run strict left).failed = (script.bare.run strict right).failed ∧
      (script.run strict left).session.Echoes old older (Event.borrows rest)
        (script.bare.run strict right).session := by
  induction script generalizing strict left right rest with
  | done => exact ⟨rfl, rfl, echoes⟩
  | act action next ih =>
    rw [Script.events] at echoes
    rw [Script.performed] at unreturned
    rw [Script.bare, Script.run]
    dsimp only at echoes unreturned ⊢
    have still := guards_perform action guarded
    by_cases about : action.toGuard = true
    · -- Without the guard nothing happens here: only the session under the guard takes a step.
      have kept : action ≠ .rollBack := by
        intro same
        apply unreturned
        split <;> exact same ▸ List.mem_cons_self
      obtain ⟨answered, same⟩ := echoes.perform_own about kept guarded
      have goes : ¬(strict = true ∧ (action.perform left).answer.isFault = true) := by
        rw [answered]
        exact fun stops => Bool.false_ne_true stops.2
      rw [if_neg goes, List.cons_append, Event.borrows_toGuard about] at same
      rw [if_neg goes] at unreturned
      have later := ih strict same (fun among => unreturned (List.mem_cons_of_mem _ among)) still
      rw [if_pos about, if_neg goes, Transcript.bare, if_pos about]
      exact later
    · have other := Bool.eq_false_iff.mpr about
      rw [if_neg about, Script.run]
      dsimp only
      by_cases stops : strict = true ∧ (action.perform left).answer.isFault = true
      · rw [if_pos stops] at echoes
        have stepped := echoes.perform other
        rw [← stepped.answer, if_pos stops, if_pos stops, Transcript.bare, if_neg about,
          stepped.notes, stepped.session.window, Transcript.bare_done]
        exact ⟨rfl, rfl, stepped.session⟩
      · rw [if_neg stops] at echoes unreturned
        have stepped := echoes.perform other
        obtain ⟨recorded, failed, later⟩ := ih strict stepped.session
          (fun among => unreturned (List.mem_cons_of_mem _ among)) still
        rw [← stepped.answer, if_neg stops, if_neg stops, Transcript.bare, if_neg about, recorded,
          stepped.notes, stepped.session.window]
        exact ⟨rfl, failed, later⟩
  | guarded strictly body asked next body_ih next_ih =>
    obtain ⟨opened, first⟩ := echoes.enter
    obtain ⟨inner, last⟩ := opened.run strictly body first
    obtain ⟨closed, noted⟩ := closing asked inner last
    have still : (Script.closing strictly body asked left).guards ≠ [] := by
      rw [Script.closing_guards]
      exact guarded
    obtain ⟨recorded, failed, later⟩ := next_ih strict closed unreturned still
    rw [Script.bare, Script.run_guarded_eq, Script.run_guarded_eq]
    dsimp only
    rw [Transcript.bare, recorded, inner.transcript, noted, inner.failed, closed.window]
    exact ⟨rfl, failed, later⟩

end Session.Echoes

/-! ## Stretches that are kept or begun anew -/

/-- The end of a guard keeps the marks. -/
theorem Session.closeGuard_marks (ending : Ending) (session : Session) :
    (session.closeGuard ending).1.marks = session.marks := by
  cases found : session.guards with
  | nil => rw [closeGuard_nil found]
  | cons guard outer =>
    rw [closeGuard_cons found]
    split <;> rfl

namespace Script

variable {strict : Bool} {session : Session}

/-- A script that does nothing to the guard it runs under leaves the guards. -/
theorem bare_guards (strict : Bool) (script : Script) (session : Session) :
    (script.bare.run strict session).session.guards = session.guards := by
  induction script generalizing strict session with
  | done => rfl
  | act action next ih =>
    rw [bare]
    by_cases about : action.toGuard = true
    · rw [if_pos about]
      exact ih strict session
    · have same : Guard.after [action] = id := by
        funext guard
        cases action <;> first | exact absurd rfl about | simp [Guard.after]
      have kept := action.perform_guards session
      rw [same, List.modifyHead_id, id] at kept
      rw [if_neg about, run]
      dsimp only
      split
      · exact kept
      · exact (ih strict _).trans kept
  | guarded strictly body asked next body_ih next_ih =>
    rw [bare, run_guarded, next_ih, closing_guards]

/-- A stretch whose guard was disarmed or is committed stays as it came. -/
theorem closing_of_kept {body : Script} {asked : Ending}
    (kept : .disarm ∈ body.performed strict session.openGuard ∨
      asked = .commit ∧ (body.run strict session.openGuard).failed = false) :
    closing strict body asked session =
      { (body.run strict session.openGuard).session with guards := session.guards } := by
  have found := inner_guards strict body session
  have stays : ¬((!(body.performed strict session.openGuard).contains .disarm) = true ∧
      (if (body.run strict session.openGuard).failed then Ending.drop else asked) = .drop) := by
    intro back
    obtain disarmed | committed := kept
    · have contained := List.contains_iff_mem.mpr disarmed
      rw [contained] at back
      exact Bool.false_ne_true back.1
    · rw [committed.1, committed.2] at back
      cases back.2
  rw [closing, Session.closeGuard_cons found, if_neg stays]

/-- A mark that a script does not take is found after it as before. -/
theorem lookup_run (strict : Bool) (script : Script) {session : Session} {name : String}
    (untaken : name ∉ (script.events strict session).flatMap Event.takes) :
    (script.run strict session).session.marks.lookup name = session.marks.lookup name := by
  induction script generalizing strict session with
  | done => rfl
  | act action next ih =>
    rw [events] at untaken
    rw [run]
    dsimp only at untaken ⊢
    by_cases stops : strict = true ∧ (action.perform session).answer.isFault = true
    · rw [if_pos stops, List.flatMap_singleton] at untaken
      rw [if_pos stops]
      exact Action.lookup_perform untaken session
    · rw [if_neg stops, List.flatMap_cons, List.mem_append, not_or] at untaken
      rw [if_neg stops]
      exact (ih strict untaken.2).trans (Action.lookup_perform untaken.1 session)
  | guarded strictly body asked next body_ih next_ih =>
    rw [events, List.cons_append, List.flatMap_cons, List.flatMap_append,
      List.flatMap_cons] at untaken
    simp only [List.mem_append, not_or] at untaken
    rw [run_guarded, next_ih strict untaken.2.2.2, closing, Session.closeGuard_marks]
    exact body_ih strictly untaken.2.1

/-- After a script that is not ended early another one goes on. -/
theorem run_append (before later : Script)
    (completed : (before.run strict session).failed = false) :
    let first := before.run strict session
    let second := later.run strict first.session
    (before.append later).run strict session =
      ⟨first.transcript.append second.transcript, second.session, second.failed⟩ := by
  induction before generalizing session with
  | done => rfl
  | act action next ih =>
    rw [run] at completed
    rw [append, run, run]
    dsimp only at completed ⊢
    by_cases stops : strict = true ∧ (action.perform session).answer.isFault = true
    · rw [if_pos stops] at completed
      cases completed
    · rw [if_neg stops] at completed
      rw [if_neg stops, if_neg stops, ih completed]
      rfl
  | guarded strictly body asked next body_ih next_ih =>
    rw [run_guarded_eq] at completed
    rw [append, run_guarded_eq, run_guarded_eq]
    dsimp only at completed ⊢
    rw [next_ih completed]
    rfl

/-- **A guard that is kept makes no difference.** -/
theorem kept_eq_bare {body : Script} {asked : Ending}
    (unreturned : .rollBack ∉ body.performed strict session.openGuard)
    (kept : .disarm ∈ body.performed strict session.openGuard ∨
      asked = .commit ∧ (body.run strict session.openGuard).failed = false) :
    let inner := body.run strict session.openGuard
    let plain := body.bare.run strict session
    inner.transcript.bare body = plain.transcript ∧ inner.failed = plain.failed ∧
      closing strict body asked session = plain.session := by
  intro inner plain
  have opened : session.openGuard.Echoes session.marks session.marks
      (Event.borrows (body.events strict session.openGuard ++ [])) session :=
    ⟨rfl, ⟨[], rfl, rfl⟩, fun _ _ => rfl⟩
  obtain ⟨recorded, failed, after⟩ := opened.run_bare strict body unreturned (List.cons_ne_nil _ _)
  have guards : plain.session.guards = session.guards := body.bare_guards strict session
  have marks : inner.session.marks = plain.session.marks := by
    obtain ⟨taken, mine, yours⟩ := after.marks
    exact mine.trans yours.symm
  refine ⟨recorded, failed, ?_⟩
  rw [closing_of_kept kept, ← guards]
  change Session.mk inner.session.buffer _ inner.session.marks = _
  rw [marks, after.buffer]

/-- A guard that is asked for it puts the buffer back as it was when the guard was opened, and stays
armed if it was. -/
theorem rollBack_restarts (valid : session.tape.Valid) (strict : Bool) (before : Script) :
    let first := before.run strict session.openGuard
    let restart := Action.rollBack.perform first.session
    restart.answer = .done ∧ restart.session.buffer = session.buffer ∧
      restart.session.guards = first.session.guards ∧
      restart.session.marks = first.session.marks := by
  intro first restart
  have found : first.session.guards = _ := inner_guards strict before session
  have returned : restart = ⟨.done, first.session.rolledBack session.window,
      [.rolledBack first.session.tape.window.pos session.window.pos]⟩ := by
    simp only [restart, Action.perform, found]
  have kept : session.KeepsStore first.session :=
    (Session.KeepsStore.of_buffer_eq rfl).trans (before.run_keepsStore strict session.openGuard)
  rw [returned]
  exact ⟨rfl, kept.restore_buffer valid, rfl, rfl⟩

/-- **After the window was put back a stretch goes as from where the guard was opened.** -/
theorem restart_eq_bare (valid : session.tape.Valid) {before later : Script} {asked : Ending}
    (completed : (before.run strict session.openGuard).failed = false) :
    let body := before.append (.act .rollBack later)
    let first := before.run strict session.openGuard
    let restart := Action.rollBack.perform first.session
    let rest := later.run strict restart.session
    let plain := later.bare.run strict session
    .rollBack ∉ later.performed strict restart.session →
    (∀ name ∈ Event.borrows (later.events strict restart.session),
      name ∉ (before.events strict session.openGuard).flatMap Event.takes) →
    body.run strict session.openGuard =
        ⟨first.transcript.append (.acted .done session.window restart.notes rest.transcript),
          rest.session, rest.failed⟩ ∧
      restart.session.guards = first.session.guards ∧
      rest.transcript.bare later = plain.transcript ∧ rest.failed = plain.failed ∧
      (closing strict body asked session).guards = session.guards ∧
      (closing strict body asked session).buffer =
        if .disarm ∈ body.performed strict session.openGuard ∨ asked = .commit ∧ rest.failed = false
          then plain.session.buffer else session.buffer := by
  intro body first restart rest plain unreturned own
  obtain ⟨answer, buffer, guards, marks⟩ := rollBack_restarts valid strict before
  -- The marks of the first script stand before those of the session, so only their names matter.
  have fresh : ∀ name ∈ Event.borrows (later.events strict restart.session ++ []),
      restart.session.marks.lookup name = session.marks.lookup name := by
    rw [List.append_nil]
    intro name borrowed
    exact (congrArg (List.lookup name) marks).trans (before.lookup_run strict (own name borrowed))
  have echoes : restart.session.Echoes restart.session.marks session.marks
      (Event.borrows (later.events strict restart.session ++ [])) session :=
    ⟨buffer, ⟨[], rfl, rfl⟩, fresh⟩
  have under : restart.session.guards ≠ [] := by
    rw [guards, inner_guards]
    exact List.cons_ne_nil _ _
  obtain ⟨recorded, failed, after⟩ := echoes.run_bare strict later unreturned under
  have goes : ¬(strict = true ∧ restart.answer.isFault = true) := by
    rw [answer]
    exact fun stops => Bool.false_ne_true stops.2
  have second : (Script.act .rollBack later).run strict first.session =
      ⟨.acted .done session.window restart.notes rest.transcript, rest.session, rest.failed⟩ := by
    have window : restart.session.window = session.window := congrArg Buffer.window buffer
    rw [run]
    dsimp only
    rw [if_neg goes, ← window, ← answer]
  have whole : body.run strict session.openGuard =
      ⟨first.transcript.append (.acted .done session.window restart.notes rest.transcript),
        rest.session, rest.failed⟩ := by
    rw [run_append before _ completed, second]
  refine ⟨whole, guards, recorded, failed, closing_guards strict body asked session, ?_⟩
  by_cases kept : .disarm ∈ body.performed strict session.openGuard ∨
      asked = .commit ∧ rest.failed = false
  · have stays : closing strict body asked session =
        { (body.run strict session.openGuard).session with guards := session.guards } := by
      apply closing_of_kept
      rw [whole]
      exact kept
    rw [if_pos kept, stays, whole]
    exact after.buffer
  · rw [if_neg kept]
    rw [not_or] at kept
    have dropped : asked = .drop ∨ (body.run strict session.openGuard).failed = true := by
      rw [whole]
      cases asked with
      | drop => exact .inl rfl
      | commit => exact .inr (eq_true_of_ne_false fun none => kept.2 ⟨rfl, none⟩)
    exact closing_buffer valid dropped kept.1

/-- **A guard that is kept makes no difference, and one that is asked to put the window back begins
anew.** On every reached session a script may run under a guard. If the guard is committed at the
end, or was disarmed at any time, and was never asked to put the window back, then every answer and
the session after it are those of the script without what it does to the guard, run without one. If
the guard is asked to put the window back between two scripts, whether it is armed or not, it stays
as armed as it was, and the second script, if it borrows no mark that the first took, records what
it records where it runs alone from the session that the guard found. The buffer at the end is then
the one that the second script alone leaves, if the guard was disarmed or is committed, and else the
one that the guard found. -/
theorem kept_guard_transparent (reached : session.Reached) (strict : Bool) (asked : Ending)
    (outer : Bool) :
    (∀ body : Script,
        let inner := body.run strict session.openGuard
        let plain := body.bare.run strict session
        .rollBack ∉ body.performed strict session.openGuard →
        (.disarm ∈ body.performed strict session.openGuard ∨
          asked = .commit ∧ inner.failed = false) →
        inner.transcript.bare body = plain.transcript ∧ inner.failed = plain.failed ∧
          ((Script.guarded strict body asked .done).run outer session).session = plain.session) ∧
      ∀ before later : Script,
        let body := before.append (.act .rollBack later)
        let first := before.run strict session.openGuard
        let restart := Action.rollBack.perform first.session
        let rest := later.run strict restart.session
        let plain := later.bare.run strict session
        let after := ((Script.guarded strict body asked .done).run outer session).session
        first.failed = false →
        .rollBack ∉ later.performed strict restart.session →
        (∀ name ∈ Event.borrows (later.events strict restart.session),
          name ∉ (before.events strict session.openGuard).flatMap Event.takes) →
        body.run strict session.openGuard =
            ⟨first.transcript.append (.acted .done session.window restart.notes rest.transcript),
              rest.session, rest.failed⟩ ∧
          restart.session.guards = first.session.guards ∧
          rest.transcript.bare later = plain.transcript ∧ rest.failed = plain.failed ∧
          after.guards = session.guards ∧
          after.buffer =
            if .disarm ∈ body.performed strict session.openGuard ∨
                asked = .commit ∧ rest.failed = false
              then plain.session.buffer else session.buffer :=
  ⟨fun _ unreturned kept => kept_eq_bare unreturned kept,
    fun _ _ completed => restart_eq_bare reached.sound.buffer.tape.valid completed⟩

/-- Under a guard that is disarmed between its steps, and that drops a guard inside it, two bytes
are read as without it. Under one that is committed after bytes were read, marked and put back, a
stretch that takes a mark of the same name reads as from the start. -/
theorem kept_guard_transparent_twice :
    let events : List Event :=
      [.owner (.write [1, 2, 3, 4, 5]), .opened, .reader (.advance 1), .reader (.mark "a")]
    let session := (Session.ofBuffer (.growing (.empty 8 16))).after events
    let inside : Script := .guarded true (.act (.advance 1) .done) .drop (.act .position .done)
    let body : Script := .act (.advance 1) (.act .disarm (.act (.advance 1) inside))
    let before : Script := .act (.advance 2) (.act (.mark "b") (.act .reset .done))
    let later : Script :=
      .act (.markSize "a") (.act (.mark "b") (.act (.advance 1) (.act (.markBytes "b") .done)))
    ((Script.guarded false body .drop .done).run false session).session.window = ⟨0, 3, 5, 0⟩ ∧
      ((Script.guarded true (before.append (.act .rollBack later)) .commit .done).run false
          session).session.buffer = (later.run true session).session.buffer := by
  intro events session inside body before later
  have reached : session.Reached :=
    ⟨.growing (.empty 8 16), events, .growing 8 16 (by decide),
      ⟨rfl, trivial, trivial, trivial, trivial⟩, rfl⟩
  have whole := (kept_guard_transparent reached false .drop false).1 body
  have parts := (kept_guard_transparent reached true .commit false).2 before later
  have transparent := whole (by decide +kernel) (.inl (by decide +kernel))
  have restarted := parts (by decide +kernel) (by decide +kernel) (by decide +kernel)
  have bare : later.bare = later := by decide +kernel
  have kept := restarted.2.2.2.2.2
  rw [if_pos (.inr ⟨rfl, by decide +kernel⟩), bare] at kept
  exact ⟨(congrArg Session.window transparent.2.2).trans (by decide +kernel), kept⟩

end Script

end WireScan
