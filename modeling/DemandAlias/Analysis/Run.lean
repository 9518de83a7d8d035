import DemandAlias.Solver.Step

/-!
# Runs

A run answers one query. It owns a solver for the query and one for each query that
is raised on the way, and passes their messages on:

* edges of the call graph are found by asking for the receivers of the calls;
* a write to a field is followed up by asking for the objects written to, and then
  for their aliases, which the value can be reached by from then on;
* a value read from a field of an object is looked for at the stores to that field,
  in the calling contexts of the stores.
-/

namespace DemandAlias

open Std

/-! ### Subscriptions and registrations -/

/-- What is done with the allocations a backward solver finds. -/
inductive Subscriber where
  /-- The call site calls the method `name` of an object of their class. -/
  | resolve (site : Statement) (name : String)
  /-- Their aliases are told to the solver that writes to a field of them. -/
  | fieldWrite (requester : SolverId) (store : Node) (base : Local) (field : Field)
  /-- They are followed forward, to find the aliases of what is asked about. -/
  | aliases
  deriving DecidableEq, Inhabited

/-- What listens to a solver on behalf of another one. -/
inductive Registration where
  /-- To the aliases of what is written to at a store. -/
  | aliasesAt (listensTo requester : SolverId) (store : Node)
  /-- To the stores to a field. -/
  | storesOf (listensTo requester : SolverId) (field : Field) (continuation : State)
  /-- To the stacks of calls of the store that writes `value`. -/
  | storeContext (listensTo requester : SolverId) (value : Node)
  /-- To the transitions out of a state. -/
  | copy (listensTo requester : SolverId) (state : State)
  deriving DecidableEq, Hashable, Inhabited

/-! ### Runs -/

/-- How a run stands. -/
inductive Phase where
  /-- It goes on. -/
  | running
  /-- Nothing is left to do. -/
  | converged
  /-- The steps or the time allowed are used up. -/
  | timedOut
  /-- A node was reached in a method said to be unreachable. -/
  | unsound (node : Node)
  deriving DecidableEq, Inhabited

/-- Which solver has its turn. -/
structure Turn where
  /-- The place of the solver. -/
  solver : Nat := 0
  /-- How many steps it has made in this turn. -/
  made : Nat := 0
  /-- Whether any solver has made a step in this round. -/
  progressed : Bool := false
  deriving DecidableEq, Inhabited

/-- A run. -/
structure Run (ω : Type) where
  graph : CallGraph
  /-- The solvers, by their numbers. -/
  solvers : Array (Solver ω) := #[]
  /-- The solver of each query. -/
  ids : HashMap Query SolverId := ∅
  /-- The allocations the backward solvers have found, in the order they were found. -/
  allocations : Multimap SolverId ForwardQuery := .empty
  subscribers : Multimap SolverId Subscriber := .empty
  /-- The call sites resolved, or being resolved. -/
  resolvedSites : HashSet Statement := ∅
  /-- The methods all of whose possible call sites are resolved. -/
  resolvedMethods : HashSet MethodName := ∅
  registered : HashSet Registration := ∅
  /-- How many steps the solvers have made. -/
  steps : Nat := 0
  turn : Turn := {}
  phase : Phase := .running

namespace Run

variable {ω : Type} [Weight ω] [DecidableEq ω]

/-! ### Solvers -/

/-- The solver with this number. -/
def solver? (r : Run ω) (id : SolverId) : Option (Solver ω) := r.solvers[id.index]?

/-- Changes the solver with this number. -/
def modifySolver (r : Run ω) (id : SolverId) (f : Solver ω → Solver ω) : Run ω :=
  { r with solvers := r.solvers.modify id.index f }

/-- The solver of a query, which is created if there is none. -/
def withSolver (r : Run ω) (q : Query) : Run ω × SolverId :=
  match r.ids[q]? with
  | some id => (r, id)
  | none =>
    let id : SolverId := ⟨r.solvers.size⟩
    let direction := match q with
      | .forward _ => .forward
      | .backward _ => .backward
    ({ r with
        solvers := r.solvers.push (.start id direction q.node)
        ids := r.ids.insert q id },
      id)

/-- Changes the solver with this number, to let it be listened to, unless that has
    been done before. -/
def register (r : Run ω) (id : SolverId) (registration : Registration)
    (f : Solver ω → Solver ω) : Run ω :=
  if r.registered.contains registration then r
  else { r with registered := r.registered.insert registration }.modifySolver id f

/-! ### Allocations -/

/-- Adds an edge to the call graph. -/
def addEdge (r : Run ω) (site : Statement) (m : MethodName) : Run ω :=
  { r with graph := r.graph.addEdge site m }

/-- Tells a subscriber of an allocation. -/
def notify (p : Program) (r : Run ω) (subscriber : Subscriber) (q : ForwardQuery) : Run ω :=
  match subscriber with
  | .resolve site name =>
    match q.className?.bind fun c => p.dispatch c name with
    | some m => r.addEdge site m
    | none => r
  | .fieldWrite requester store base field =>
    let (r, id) := r.withSolver (.forward q)
    r.register id (.aliasesAt id requester store) fun s =>
      (s.onFields .all (.request (.aliasesAt requester store base field))).reportCallerFrames
        requester store base field
  | .aliases => (r.withSolver (.forward q)).1

/-- Lets a subscriber know of all allocations a solver finds. -/
def subscribe (p : Program) (r : Run ω) (id : SolverId) (subscriber : Subscriber) : Run ω :=
  let r := { r with subscribers := r.subscribers.file id subscriber }
  (r.allocations.get id).foldl (fun r q => r.notify p subscriber q) r

/-- Notes that a solver has found an allocation. -/
def found (p : Program) (r : Run ω) (id : SolverId) (q : ForwardQuery) : Run ω :=
  if (r.allocations.get id).contains q then r
  else
    let r := { r with allocations := r.allocations.file id q }
    (r.subscribers.get id).foldl (fun r subscriber => r.notify p subscriber q) r

/-! ### Calls -/

/-- Looks for the callees of a call site: that of a static call is known, and those
    of a virtual call are known with the allocations of its receiver. -/
def resolve (p : Program) (r : Run ω) (site : Statement) : Run ω :=
  if r.resolvedSites.contains site then r
  else
    let r := { r with resolvedSites := r.resolvedSites.insert site }
    match site.call? with
    | some ⟨.static m, _⟩ => if p.defines m then r.addEdge site m else r
    | some ⟨.virtual receiver name, _⟩ =>
      let (r, id) := r.withSolver (.backward ⟨site, receiver⟩)
      r.subscribe p id (.resolve site name)
    | none => r

/-- Looks for the edges of a crossing. The callers of a method are among the calls of its name. -/
def findEdges (p : Program) (r : Run ω) : Crossing → Run ω
  | .into site => r.resolve p site
  | .outOf method =>
    if r.resolvedMethods.contains method then r
    else
      let r := { r with resolvedMethods := r.resolvedMethods.insert method }
      (p.callsNamed method.shortName).foldl (fun r site => r.resolve p site) r

/-! ### Copies of states -/

/-- The bottom of the stacks of a solver. -/
def bottom? (r : Run ω) (id : SolverId) : Option State := (r.solver? id).map bottom

/-- The state of the solver `requester` that stands for the stacks of calls that `q`
    stands for in the solver `sender`. -/
def copyOf (r : Run ω) (sender requester : SolverId) (q : State) : State :=
  if r.bottom? sender = some q then (r.bottom? requester).getD q
  else .generated q (.imported sender)

/-- Lets the transitions out of `q` be copied, now and later. -/
def copyOut (r : Run ω) (sender requester : SolverId) (q : State) : Run ω :=
  if r.bottom? sender = some q then r
  else r.register sender (.copy sender requester q) fun s =>
    s.onCalls (.out q) (.request (.copy requester))

/-! ### Messages -/

/-- Passes on that a value is created at `node`: it is the one asked for, or the one
    asked for is to be found at the stores to its field `label`. -/
def handleAllocation (p : Program) (r : Run ω) (sender : SolverId) (node : Node) (label : Field)
    (continuation : State) : Run ω :=
  match ForwardQuery.of node.stmt node.var with
  | .error _ => r
  | .ok q =>
    if label = .epsilon then r.found p sender q
    else
      let (r, id) := r.withSolver (.forward q)
      r.register id (.storesOf id sender label continuation) fun s =>
        s.onFields .all (.request (.storesOf sender label continuation))

/-- Lets a solver know of an alias of what it writes to. -/
def handleAlias (p : Program) (r : Run ω) (requester : SolverId) (store : Node) (field : Field)
    (other : Node) (frames : List Statement) : Run ω :=
  r.modifySolver requester fun s =>
    if frames.isEmpty then
      s.followAll store ((p.successors store.stmt).map fun t =>
        .push ⟨t, other.var⟩ (.field field))
    else s.inject store other field frames

/-- Lets a solver go on with the value written at a store. -/
def handleStore (r : Run ω) (sender requester : SolverId) (continuation : State) (store : Node)
    (value : Local) : Run ω :=
  let n : Node := ⟨store.stmt, value⟩
  let r := r.modifySolver requester fun s => s.onFields (.out continuation) (.popMatch n)
  r.register sender (.storeContext sender requester n) fun s =>
    s.onCalls (.outBy (.single store.var) store.stmt) (.request (.storeContext requester n))

/-- Adds `n` to a solver in the calling context that `context` is in the sender. -/
def handleContext (r : Run ω) (sender requester : SolverId) (n : Node) (context : State) :
    Run ω :=
  let r := r.copyOut sender requester context
  let copy := r.copyOf sender requester context
  r.modifySolver requester fun s => s.addCall (callAt n copy) one

/-- Adds the copy of a transition of the sender to a solver. -/
def handleCopy (r : Run ω) (sender requester : SolverId) (t : CallTransition) : Run ω :=
  let r := (r.copyOut sender requester t.source).copyOut sender requester t.target
  let copy : CallTransition :=
    ⟨r.copyOf sender requester t.source, t.label, r.copyOf sender requester t.target⟩
  r.modifySolver requester fun s => s.addCall copy one

/-- Passes a message on. -/
def handle (c : Setting ω) (r : Run ω) (sender : SolverId) : Message → Run ω
  | .wanted x => if c.options.onTheFly then r.findEdges c.program x else r
  | .fieldWrite store base field =>
    let (r, id) := r.withSolver (.backward ⟨store.stmt, base⟩)
    r.subscribe c.program id (.fieldWrite sender store base field)
  | .allocation node label continuation =>
    r.handleAllocation c.program sender node label continuation
  | .aliasAt requester store field other frames =>
    r.handleAlias c.program requester store field other frames
  | .storeFound requester continuation store value =>
    r.handleStore sender requester continuation store value
  | .storeContext requester value context => r.handleContext sender requester value context
  | .copied requester t => r.handleCopy sender requester t
  | .unreachable node => { r with phase := .unsound node }

end Run

end DemandAlias
