import DemandAlias.Analysis.Run
import DemandAlias.Automaton.Loop
import DemandAlias.Error
import DemandAlias.Solver.Answer

/-!
# Results

What is reported of a run: the answer to the query, the automata of the solver of the
query, and how much was done for it.
-/

namespace DemandAlias

/-! ### What was done -/

/-- How much was done to answer a query, with all the queries it raised. -/
structure Stats where
  solvers : Nat
  /-- The nodes reached by all solvers. -/
  nodes : Nat
  /-- The transitions of all automata of calls. -/
  callTransitions : Nat
  /-- The transitions of all automata of fields. -/
  fieldTransitions : Nat
  /-- The methods visited by any solver. -/
  methods : Nat
  steps : Nat
  deriving DecidableEq, Inhabited

namespace Stats

variable {ω : Type} [Weight ω] [DecidableEq ω]

/-- The sum of a count over all solvers. -/
def total (r : Run ω) (count : Solver ω → Nat) : Nat := r.solvers.foldl (fun n s => n + count s) 0

/-- What was done in a run. -/
def ofRun (r : Run ω) : Stats where
  solvers := r.solvers.size
  nodes := total r fun s => s.reached.size
  callTransitions := total r fun s => s.calls.transitionCount
  fieldTransitions := total r fun s => s.fields.transitionCount
  methods := (r.solvers.foldl
    (fun (methods : OrderedSet MethodName) s => s.visited.toList.foldl .insert methods)
    .empty).size
  steps := r.steps

/-- How the statistics are written, for a run of so many milliseconds. -/
def render (s : Stats) (elapsed : Nat) : String :=
  s!"{elapsed}ms, {s.solvers} solvers, {s.nodes} nodes, "
    ++ s!"{s.callTransitions}+{s.fieldTransitions} transitions, {s.methods} methods, "
    ++ s!"{s.steps} steps"

end Stats

/-! ### Snapshots -/

/-- The nodes a solver has reached and the transitions of its automata, in order. -/
structure Snapshot where
  /-- The final state of both automata. -/
  bottom : State
  reached : List Node
  calls : List CallTransition
  fields : List FieldTransition
  deriving DecidableEq, Inhabited

namespace Snapshot

variable {ω : Type} [Weight ω] [DecidableEq ω]

/-- The snapshot of a solver. -/
def ofSolver (s : Solver ω) : Snapshot where
  bottom := s.bottom
  reached := sorted s.reached.toList
  calls := sorted s.calls.transitions
  fields := sorted s.fields.transitions

/-- An automaton with these transitions and the final state `bottom`. -/
def rebuild {Λ κ : Type} [DecidableEq Λ] [Hashable Λ] (bottom : State)
    (ts : List (Transition State Λ)) : Automaton State Λ Reach κ :=
  ts.foldl (fun a t => a.add t .one) (Automaton.empty.addFinal bottom)

/-- The automaton of calls, without weights. -/
def callAutomaton {κ : Type} (s : Snapshot) : Automaton State Statement Reach κ :=
  rebuild s.bottom s.calls

/-- The automaton of fields. -/
def fieldAutomaton {κ : Type} (s : Snapshot) : Automaton State Field Reach κ :=
  rebuild s.bottom s.fields

/-- The solver has done nothing yet. -/
def empty (bottom : State) : Snapshot := ⟨bottom, [], [], []⟩

/-- What the snapshot `s` has and `old` has not, each thing as it is written: first
    the nodes reached and then the transitions. -/
def news (s old : Snapshot) : List String :=
  (s.reached.filter (!old.reached.contains ·)).map (fun n => "reached " ++ n.place)
    ++ (s.calls.filter (!old.calls.contains ·)).map
      (fun t => "call " ++ t.render State.render Statement.render)
    ++ (s.fields.filter (!old.fields.contains ·)).map
      (fun t => "field " ++ t.render State.render Field.render)

end Snapshot

/-! ### Answers -/

/-- The answer to a backward query. -/
structure BackwardResult where
  query : BackwardQuery
  /-- The allocations whose values the local may hold, in order. -/
  allocations : List ForwardQuery
  /-- The access paths by which these values are reached at the statement, in order. -/
  aliases : List AccessPath
  timedOut : Bool
  automata : Snapshot
  stats : Stats
  deriving DecidableEq, Inhabited

/-- The answer to a forward query. -/
structure ForwardResult (ω : Type) where
  query : ForwardQuery
  /-- The nodes that hold the object itself, in order, with their weights. -/
  table : List (Node × ω)
  /-- The methods called on the object, in order. -/
  invoked : List MethodName
  /-- Whether stacks of calls are unbounded. -/
  hasRecursion : Bool
  /-- Whether stacks of fields are unbounded. -/
  hasFieldLoop : Bool
  /-- The methods the object gets to, in order. -/
  visited : List MethodName
  timedOut : Bool
  automata : Snapshot
  stats : Stats
  /-- Whether trails are reported. -/
  reportTrails : Bool

namespace ForwardResult

/-- Whether the object gets to `n`. -/
def reaches {ω : Type} (r : ForwardResult ω) (n : Node) : Bool :=
  r.table.any fun entry => entry.1 == n

/-- The nodes the object gets to, in order. -/
def nodes {ω : Type} (r : ForwardResult ω) : List Node := r.table.map (·.1)

/-- How the object gets to `n`, if it does and trails are reported. -/
def trail? (r : ForwardResult Trail) (n : Node) : Option (List Trail.Element) :=
  if r.reportTrails then
    (r.table.find? fun entry => entry.1 == n).map fun entry => entry.2.elements
  else none

end ForwardResult

/-! ### Answers of runs -/

namespace Run

variable {ω : Type} [Weight ω] [DecidableEq ω]

/-- Whether a run was stopped before its end. -/
def isTimedOut (r : Run ω) : Bool := r.phase != .converged

/-- The allocations a solver has found, in order. -/
def allocationsOf (r : Run ω) (id : SolverId) : List ForwardQuery := sorted (r.allocations.get id)

/-- The access paths by which any of the allocations is reached at `stmt`. -/
def aliasesAt (r : Run ω) (stmt : Statement) (allocations : List ForwardQuery) :
    List AccessPath :=
  sortedUnique <| allocations.flatMap fun q =>
    match r.ids[Query.forward q]? >>= r.solver? with
    | some s => s.accessPathsAt stmt
    | none => []

/-- The answer to a backward query in the solver with this number. -/
def backwardResult (c : Setting ω) (r : Run ω) (q : BackwardQuery) (id : SolverId) :
    BackwardResult :=
  let allocations := r.allocationsOf id
  { query := q
    allocations
    aliases := if c.options.reportAliases then r.aliasesAt q.node.stmt allocations else []
    timedOut := r.isTimedOut
    automata := (r.solver? id).elim (.empty (.bottom q.node)) .ofSolver
    stats := .ofRun r }

/-- The nodes that hold the object, in order. -/
def tableOf (c : Setting ω) (s : Solver ω) (q : ForwardQuery) : List (Node × ω) :=
  (sortedBy (·.1) s.nodeWeights.toList).filter fun (n, w) =>
    s.holdsDirectly n && !(c.options.prune && c.weighing.contradicts q w)

/-- The methods called on an object of the class `className` at some of the nodes. -/
def invokedAt (p : Program) (className : ClassName) (nodes : List Node) : List MethodName :=
  sortedUnique <| nodes.filterMap fun n =>
    match n.stmt.call? with
    | some ⟨.virtual receiver name, _⟩ =>
      if receiver = n.var then p.dispatch className name else none
    | _ => none

/-- The answer to a forward query by its solver. -/
def forwardResult (c : Setting ω) (r : Run ω) (q : ForwardQuery) (s : Solver ω) :
    ForwardResult ω :=
  let table := tableOf c s q
  { query := q
    table
    invoked := q.className?.elim [] fun className =>
      invokedAt c.program className (table.map (·.1))
    hasRecursion := s.calls.hasLoop fun _ => false
    hasFieldLoop := s.fields.hasLoop (· == .epsilon)
    visited := sorted s.visited.toList
    timedOut := r.isTimedOut
    automata := .ofSolver s
    stats := .ofRun r
    reportTrails := c.options.reportTrails }

end Run

end DemandAlias
