import DemandAlias.Analysis.Run

/-!
# The schedule of a run

The solvers take turns, in the order of their numbers, those created on the way
included. In its turn a solver makes steps until it is idle, but no more than
`batch`. The messages of a step are passed on before the next step. A round in which
no solver made a step is the last one.

A run advances by *ticks*: a tick makes one step or lets the next solver have its
turn. What is left of the schedule after any tick is in the run itself.
-/

namespace DemandAlias.Run

variable {ω : Type} [Weight ω] [DecidableEq ω]

/-- The most steps a solver makes in its turn. -/
def batch : Nat := 64

/-- Whether the run goes on. -/
def isRunning (r : Run ω) : Bool := r.phase == .running

/-- Passes on what the solver with this number has in its outbox. -/
def deliver (c : Setting ω) (r : Run ω) (id : SolverId) : Run ω :=
  let messages := ((r.solver? id).map fun s => s.outbox.reverse).getD []
  let r := r.modifySolver id fun s => { s with outbox := [] }
  messages.foldl (fun r m => r.handle c id m) r

/-- Lets the solver with this number make a step. -/
def stepSolver (c : Setting ω) (r : Run ω) (id : SolverId) : Run ω :=
  let g := r.graph
  let r := r.modifySolver id fun s => s.step c g
  { r with steps := r.steps + 1 }.deliver c id

/-- Ends the turn of a solver. -/
def endTurn (r : Run ω) : Run ω :=
  { r with turn := { r.turn with solver := r.turn.solver + 1, made := 0 } }

/-- Ends a round: the run has converged if no solver made a step in it. -/
def endRound (r : Run ω) : Run ω :=
  if r.turn.progressed then { r with turn := {} } else { r with phase := .converged }

/-- Goes on with the turn of the solver with this number, when so many milliseconds have gone. -/
def continueTurn (c : Setting ω) (elapsed : Nat) (r : Run ω) (id : SolverId) : Run ω :=
  let g := r.graph
  let r := r.modifySolver id fun s => s.refresh c g
  if (r.solver? id).all Solver.isIdle then r.endTurn
  else if c.options.isExhausted batch r.steps elapsed then { r with phase := .timedOut }
  else
    let r := { r with turn := { r.turn with made := r.turn.made + 1, progressed := true } }
    r.stepSolver c id

/-- Makes a step, or lets the next solver have its turn. -/
def tick (c : Setting ω) (elapsed : Nat) (r : Run ω) : Run ω :=
  if !r.isRunning then r
  else if r.solvers.size ≤ r.turn.solver then r.endRound
  else if batch ≤ r.turn.made then r.endTurn
  else r.continueTurn c elapsed ⟨r.turn.solver⟩

/-- Lets a run advance by `n` ticks, or to its end if that comes first. -/
def advance (c : Setting ω) (elapsed : Nat) : Nat → Run ω → Run ω
  | 0, r => r
  | n + 1, r => if r.isRunning then (r.tick c elapsed).advance c elapsed n else r

/-- More ticks than any run takes in practice. -/
def ample : Nat := 0x4000000000000000

/-- Lets a run go on to its end, while time stands still. -/
def finish (c : Setting ω) (r : Run ω) : Run ω := r.advance c 0 ample

end DemandAlias.Run
