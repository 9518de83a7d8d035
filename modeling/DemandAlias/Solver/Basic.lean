import Std.Data.HashSet
import DemandAlias.Flow.Weighing
import DemandAlias.Options
import DemandAlias.Solver.Rule

/-!
# Solvers

A solver follows one value, forward from where it is created or backward from where
it is asked about. It keeps two automata. In the automaton of calls, a transition
`var --stmt--> q` says that the local may hold the value at the statement, with the
stack of calls that `q` stands for. In the automaton of fields, a transition
`node --field--> q` says that the node reaches the value by the field and then by the
stack of fields that `q` stands for. Both stacks end at the solver's bottom.

A node is *processed* once both automata reach it. Its moves become rules that
listen to the transitions out of the node in both automata. Work waits in three
queues: the events of the two automata and the nodes reached but not yet processed.
What concerns other solvers is put into an outbox.
-/

namespace DemandAlias

open Std

/-- What all solvers of an analysis have in common. -/
structure Setting (ω : Type) where
  program : Program
  scope : Scope
  weighing : Weighing ω
  options : Options

/-- The queues of a solver. -/
inductive WorkQueue where
  /-- The events of the automaton of calls. -/
  | calls
  /-- The events of the automaton of fields. -/
  | fields
  /-- The nodes to be processed. -/
  | nodes
  deriving DecidableEq, Inhabited

/-- The queue whose turn is next. -/
def WorkQueue.next : WorkQueue → WorkQueue
  | .calls => .fields
  | .fields => .nodes
  | .nodes => .calls

/-- A solver. -/
structure Solver (ω : Type) where
  id : SolverId
  direction : Direction
  /-- The node it starts at. -/
  seed : Node
  calls : Automaton State Statement ω (CallRule ω)
  fields : Automaton State Field Reach FieldRule
  /-- The nodes the automaton of calls reaches. -/
  callReached : HashSet Node := ∅
  /-- The nodes the automaton of fields reaches. -/
  fieldReached : HashSet Node := ∅
  /-- The nodes both reach, processed or about to be. -/
  reached : OrderedSet Node := .empty
  /-- The nodes about to be processed. -/
  pending : Queue Node := .empty
  watches : Watches := .empty
  /-- How many edges the call graph had when they were last followed. -/
  edgesSeen : Nat := 0
  /-- The methods of the nodes processed. -/
  visited : OrderedSet MethodName := .empty
  /-- The requests that listen to a state of the automaton of calls. -/
  callRequests : HashSet (State × CallRequest) := ∅
  /-- The requests that listen to a state of the automaton of fields. -/
  fieldRequests : HashSet (State × FieldRequest) := ∅
  /-- The frames being left: from which state by which statement, for which node, and
      through which frames afterwards. -/
  unwinding : HashSet (State × Statement × Node × List Statement) := ∅
  /-- What the others are to be told, the latest first. -/
  outbox : List Message := []
  /-- The queue served last. -/
  last : WorkQueue := .calls

namespace Solver

variable {ω : Type}

/-- The bottom of both stacks. -/
def bottom (s : Solver ω) : State := .bottom s.seed

/-- The transition that says that the local of `n` may hold the value at the
    statement of `n`, with the stack of calls of `q`. -/
def callAt (n : Node) (q : State) : CallTransition := ⟨.single n.var, n.stmt, q⟩

/-- The transition that says that `n` reaches the value by `label` and then by the
    stack of fields of `q`. -/
def fieldAt (n : Node) (label : Field) (q : State) : FieldTransition := ⟨.located n, label, q⟩

/-- The frame of a method entered at `n`. -/
def frameOf (n : Node) : State := .generated (.single n.var) (.entry n.stmt)

/-- The stack of fields below `field`, pushed at `n`. -/
def below (n : Node) (field : Field) : State := .generated (.located n) (.field field)

variable [Weight ω] [DecidableEq ω]

/-- A solver that has reached nothing but its seed. -/
def start (id : SolverId) (direction : Direction) (seed : Node) : Solver ω where
  id
  direction
  seed
  calls := ((Automaton.empty.addFinal (.bottom seed)).listen .all .reach).add
    (callAt seed (.bottom seed)) one
  fields := ((Automaton.empty.addFinal (.bottom seed)).listen .all .reach).add
    (fieldAt seed .epsilon (.bottom seed)) .one

/-! ### Changing the automata -/

/-- Adds a transition to the automaton of calls. -/
def addCall (s : Solver ω) (t : CallTransition) (w : ω) : Solver ω :=
  { s with calls := s.calls.add t w }

/-- Adds a transition to the automaton of fields. -/
def addField (s : Solver ω) (t : FieldTransition) : Solver ω :=
  { s with fields := s.fields.add t .one }

/-- Registers a rule with the automaton of calls. -/
def onCalls (s : Solver ω) (topic : Topic State Statement) (rule : CallRule ω) : Solver ω :=
  { s with calls := s.calls.listen topic rule }

/-- Registers a rule with the automaton of fields. -/
def onFields (s : Solver ω) (topic : Topic State Field) (rule : FieldRule) : Solver ω :=
  { s with fields := s.fields.listen topic rule }

/-- Puts a message into the outbox. -/
def tell (s : Solver ω) (m : Message) : Solver ω := { s with outbox := m :: s.outbox }

/-- Registers a request with the automaton of calls unless it listens to the state already. -/
def requestCalls (s : Solver ω) (state : State) (topic : Topic State Statement)
    (r : CallRequest) : Solver ω :=
  if s.callRequests.contains (state, r) then s
  else { s with callRequests := s.callRequests.insert (state, r) }.onCalls topic (.request r)

/-- Registers a request with the automaton of fields unless it listens to the state already. -/
def requestFields (s : Solver ω) (state : State) (topic : Topic State Field)
    (r : FieldRequest) : Solver ω :=
  if s.fieldRequests.contains (state, r) then s
  else { s with fieldRequests := s.fieldRequests.insert (state, r) }.onFields topic (.request r)

/-- Leaves the frames of everything that goes from `state` by `label`, and a frame for each of
    `frames` after that, to add `target` in the frame reached; unless that is being done already. -/
def unwind (s : Solver ω) (state : State) (label : Statement) (target : Node)
    (frames : List Statement) : Solver ω :=
  if s.unwinding.contains (state, label, target, frames) then s
  else
    { s with unwinding := s.unwinding.insert (state, label, target, frames) }.onCalls
      (.outBy state label) (.unwind target frames)

/-! ### Moves -/

/-- Registers the rules that follow a move from `n` in both automata. -/
def follow (s : Solver ω) (n : Node) (m : Move) : Solver ω :=
  let calls : Topic State Statement := .outBy (.single n.var) n.stmt
  let fields : Topic State Field := .out (.located n)
  match m with
  | .step target => (s.onCalls calls (.step n target)).onFields fields (.step target)
  | .push target (.call site) =>
    (s.onCalls calls (.push n target site)).onFields fields (.step target)
  | .pop target (.call site) =>
    (s.onCalls calls (.pop n target site)).onFields fields (.step target)
  | .push target (.field f) => (s.onCalls calls (.step n target)).onFields fields (.push target f)
  | .pop target (.field f) => (s.onCalls calls (.step n target)).onFields fields (.pop target f)

/-- Follows some moves from `n`, one after the other. -/
def followAll (s : Solver ω) (n : Node) (moves : List Move) : Solver ω :=
  moves.foldl (fun s m => s.follow n m) s

/-- Adds `other`, from which the value written at `store` is reached by `field`, in
    the frame reached through `frames` from that of the store. -/
def inject (s : Solver ω) (store other : Node) (field : Field) (frames : List Statement) :
    Solver ω :=
  (s.onFields (.out (.located store)) (.push other field)).unwind (.single store.var) store.stmt
    other frames

/-- Reports the locals that hold the tracked object in the frames of the callers of
    the method of `store`, to the solver that writes to `field` of `base` there. -/
def reportCallerFrames (s : Solver ω) (requester : SolverId) (store : Node) (base : Local)
    (field : Field) : Solver ω :=
  s.requestCalls (.single base) (.outBy (.single base) store.stmt)
    (.callerFrames requester store field [])

end Solver

export Solver (bottom callAt fieldAt)

end DemandAlias
