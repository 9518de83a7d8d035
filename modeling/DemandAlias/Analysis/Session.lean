import DemandAlias.Analysis.Result
import DemandAlias.Analysis.Schedule

/-!
# Sessions

A session answers queries about a program, one after the other. Each query has a run
of its own; what the runs have in common is the call graph, which one run leaves to
the next.
-/

namespace DemandAlias

/-- A session. -/
structure Session (ω : Type) where
  setting : Setting ω
  /-- The edges found so far. -/
  graph : CallGraph

namespace Session

variable {ω : Type} [Weight ω] [DecidableEq ω]

/-- A new session. Unless calls are resolved on the fly, its call graph is that of
    the class hierarchy. -/
def start (setting : Setting ω) : Session ω where
  setting
  graph := if setting.options.onTheFly then .empty else .classHierarchy setting.program

/-- The session with the call graph that a run leaves. -/
def keep (session : Session ω) (r : Run ω) : Session ω := { session with graph := r.graph }

/-- The node at which a run has failed. -/
def failure? (r : Run ω) : Option Node :=
  match r.phase with
  | .unsound node => some node
  | _ => none

/-! ### Backward queries -/

/-- The run for a backward query, before its first step. -/
def beginBackward (session : Session ω) (q : BackwardQuery) : Run ω :=
  let r : Run ω := { graph := session.graph }
  let (r, id) := r.withSolver (.backward q)
  if session.setting.options.reportAliases then
    r.subscribe session.setting.program id .aliases
  else r

/-- The answer to a backward query by its run. -/
def endBackward (session : Session ω) (q : BackwardQuery) (r : Run ω) :
    Except Error BackwardResult :=
  match failure? r with
  | some node => .error (.unsound node)
  | none => .ok (r.backwardResult session.setting q ⟨0⟩)

/-- Answers a backward query. -/
def solveBackward (session : Session ω) (q : BackwardQuery) :
    Except Error BackwardResult × Session ω :=
  let r := (session.beginBackward q).finish session.setting
  (session.endBackward q r, session.keep r)

/-! ### Forward queries -/

/-- The solver of a forward query, before its first step. -/
def seedSolver (q : ForwardQuery) : Solver ω := .start ⟨0⟩ .forward q.node

/-- The run for a forward query, before its first step. -/
def beginForward (session : Session ω) (q : ForwardQuery) : Run ω :=
  let r : Run ω := { graph := session.graph }
  (r.withSolver (.forward q)).1

/-- The answer to a forward query by its run. -/
def endForward (session : Session ω) (q : ForwardQuery) (r : Run ω) :
    Except Error (ForwardResult ω) :=
  match failure? r with
  | some node => .error (.unsound node)
  | none =>
    .ok (r.forwardResult session.setting q ((r.solver? ⟨0⟩).getD (seedSolver q)))

/-- Answers a forward query. -/
def solveForward (session : Session ω) (q : ForwardQuery) :
    Except Error (ForwardResult ω) × Session ω :=
  let r := (session.beginForward q).finish session.setting
  (session.endForward q r, session.keep r)

end Session

end DemandAlias
