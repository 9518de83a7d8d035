import DemandAlias.Proofs.Run.Standing

/-!
# Ticks with a step and without

Whether a step is to be made does not depend on the limits of a run: a step is *due* if the
solver that has its turn has something to do once it has caught up with the call graph
(`Run.isDue`). A tick without a step passes the turn on (`Run.pass`), and a tick with one makes
the step or, if the steps or the time are used up, stops the run (`Run.tick_eq`).

What is answered in either direction is an `Answer`, reported of a run at its end
(`Session.report`).
-/

namespace DemandAlias

variable {ω : Type} {r : Run ω}

/-! ### Ticks -/

namespace Run

variable [Weight ω] [DecidableEq ω]

/-- The run in which the solver that has its turn has caught up with the call graph. -/
def refreshed (c : Setting ω) (r : Run ω) : Run ω :=
  r.modifySolver ⟨r.turn.solver⟩ fun s => s.refresh c r.graph

/-- A step is due: the run goes on, and the solver that has its turn has something to do. -/
def isDue (c : Setting ω) (r : Run ω) : Bool :=
  r.isRunning && decide (r.turn.solver < r.solvers.size) && decide (r.turn.made < batch) &&
    !((r.refreshed c).solver? ⟨r.turn.solver⟩).all Solver.isIdle

/-- The turn is passed on, as no step is due. -/
def pass (c : Setting ω) (r : Run ω) : Run ω :=
  if !r.isRunning then r
  else if r.solvers.size ≤ r.turn.solver then r.endRound
  else if batch ≤ r.turn.made then r.endTurn
  else (r.refreshed c).endTurn

/-- The step that is due is made. -/
def stepDue (c : Setting ω) (r : Run ω) : Run ω :=
  (r.refreshed c).countStep.stepSolver c ⟨r.turn.solver⟩

/-- The run is stopped before the step that is due. -/
def stopped (c : Setting ω) (r : Run ω) : Run ω := { r.refreshed c with phase := .timedOut }

/-- What a tick does. -/
theorem tick_eq (c : Setting ω) (elapsed : Nat) (r : Run ω) : r.tick c elapsed =
    if r.isDue c then
      if c.options.isExhausted batch r.steps elapsed then r.stopped c else r.stepDue c
    else r.pass c := by
  unfold Run.tick isDue pass
  cases hrunning : r.isRunning with
  | false => simp
  | true =>
    by_cases hall : r.solvers.size ≤ r.turn.solver
    · simp [hall, Nat.not_lt.2 hall]
    by_cases hmade : batch ≤ r.turn.made
    · simp [hall, hmade, Nat.not_lt.2 hmade]
    have hlt : r.turn.solver < r.solvers.size := Nat.lt_of_not_le hall
    have hfew : r.turn.made < batch := Nat.lt_of_not_le hmade
    simp only [hlt, hfew, hall, hmade, Bool.not_true, decide_true, Bool.true_and,
      Bool.false_eq_true, if_false]
    cases hidle : ((r.refreshed c).solver? ⟨r.turn.solver⟩).all Solver.isIdle with
    | true => exact if_pos hidle
    | false => exact if_neg (eq_false_iff.1 hidle)

/-- If a step is due, there is a solver that makes it. -/
theorem exists_of_isDue {c : Setting ω} (h : r.isDue c = true) :
    r.phase = .running ∧ ∃ s queue, (r.refreshed c).solver? ⟨r.turn.solver⟩ = some s ∧
      s.turn? = some queue ∧ r.stepDue c =
        (r.refreshed c).countStep.serveSolver c ⟨r.turn.solver⟩ queue := by
  simp only [isDue, isRunning, and_eq_true, beq_iff_eq] at h
  obtain ⟨⟨⟨hrunning, -⟩, -⟩, hbusy⟩ := h
  refine ⟨hrunning, ?_⟩
  cases hs : (r.refreshed c).solver? ⟨r.turn.solver⟩ with
  | none => simp [hs] at hbusy
  | some s =>
    rw [hs] at hbusy
    obtain ⟨queue, hturn, -⟩ := exists_turn? (s := s) (by simpa using hbusy)
    exact ⟨s, queue, rfl, hturn, stepSolver_eq (r := (r.refreshed c).countStep) hs hturn⟩

variable (c : Setting ω)

/-- Passing on messages makes no steps. -/
theorem steps_handle (r : Run ω) (sender : SolverId) (m : Message) :
    (r.handle c sender m).steps = r.steps := by
  cases m with
  | unreachable => rfl
  | _ => exact (goesOn_handle c r sender (by simp)).steps

/-- The step that is due counts as one. -/
theorem steps_stepDue (r : Run ω) : (r.stepDue c).steps = r.steps + 1 :=
  List.foldlRecOn (motive := fun r' : Run ω => r'.steps = r.steps + 1) _ _ rfl
    fun r' hr' m _ => (steps_handle c r' _ m).trans hr'

omit [Weight ω] [DecidableEq ω] in
theorem steps_pass (r : Run ω) : (r.pass c).steps = r.steps := by
  unfold pass endRound
  repeat' split
  all_goals rfl

theorem advance_of_not_running (elapsed n : Nat) (h : r.isRunning = false) :
    r.advance c elapsed n = r := by
  cases n with
  | zero => rfl
  | succ => simp [Run.advance, h]

theorem advance_succ_of_running (elapsed n : Nat) (h : r.isRunning = true) :
    r.advance c elapsed (n + 1) = (r.tick c elapsed).advance c elapsed n := by
  simp [Run.advance, h]

end Run

/-! ### Answers -/

/-- The answer to a query. -/
inductive Answer (ω : Type) where
  | backward (result : BackwardResult)
  | forward (result : ForwardResult ω)

namespace Answer

/-- Whether the run was stopped before its end. -/
def timedOut : Answer ω → Bool
  | .backward result => result.timedOut
  | .forward result => result.timedOut

/-- How much was done to answer the query. -/
def stats : Answer ω → Stats
  | .backward result => result.stats
  | .forward result => result.stats

end Answer

namespace Session

variable [Weight ω] [DecidableEq ω]

/-- The run of the query after so many ticks, or at its end if that comes first. -/
def after (session : Session ω) (q : Query) (elapsed ticks : Nat) : Run ω :=
  (session.begin q).advance session.setting elapsed ticks

/-- The answer to the query by its run. -/
def report (session : Session ω) (q : Query) (r : Run ω) : Except Error (Answer ω) :=
  match q with
  | .backward q => (session.endBackward q r).map .backward
  | .forward q => (session.endForward q r).map .forward

omit [Weight ω] [DecidableEq ω] in
theorem failure?_eq_none (h : ¬r.Failed) : failure? r = none := by
  unfold failure?
  split
  · next n hn => exact absurd ⟨n, hn⟩ h
  · rfl

/-- A run that has not failed is answered by, with what was done in it. -/
theorem exists_report (session : Session ω) (q : Query) (h : ¬r.Failed) :
    ∃ answer, session.report q r = .ok answer ∧ answer.stats = .ofRun r ∧
      answer.timedOut = r.isTimedOut := by
  cases q with
  | backward =>
    simp only [report, endBackward, failure?_eq_none h]
    exact ⟨_, rfl, rfl, rfl⟩
  | forward =>
    simp only [report, endForward, failure?_eq_none h]
    exact ⟨_, rfl, rfl, rfl⟩

/-- The answer to the query after so many ticks. -/
def answerAfter (session : Session ω) (q : Query) (elapsed ticks : Nat) :
    Except Error (Answer ω) :=
  session.report q (session.after q elapsed ticks)

end Session

end DemandAlias
