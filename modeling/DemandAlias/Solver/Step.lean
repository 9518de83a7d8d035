import DemandAlias.Solver.Basic

/-!
# Steps of a solver

A step serves one of the solver's queues: it delivers an event of one of the two
automata to the rule that listens, or processes a node. The queues take turns, and
one that is empty is skipped.

Between steps a solver may have to catch up with the call graph (`refresh`): every
node that watches a crossing follows every edge of it once, no matter which of the
two was there first.
-/

namespace DemandAlias.Solver

variable {ω : Type} [Weight ω] [DecidableEq ω]

/-! ### Reaching nodes -/

/-- Puts `n` among the nodes to be processed if both automata reach it and it has
    not been put there before. -/
def reach (s : Solver ω) (n : Node) : Solver ω :=
  if s.callReached.contains n && s.fieldReached.contains n && !s.reached.contains n then
    { s with reached := s.reached.insert n, pending := s.pending.push n }
  else s

/-- Notes that the automaton of calls reaches `n`. -/
def reachByCalls (s : Solver ω) (n : Node) : Solver ω :=
  if s.callReached.contains n then s
  else
    { s with
      callReached := s.callReached.insert n
      calls := s.calls.addInitial (.single n.var) }.reach n

/-- Notes that the automaton of fields reaches `n`. -/
def reachByFields (s : Solver ω) (n : Node) : Solver ω :=
  if s.fieldReached.contains n then s
  else
    { s with
      fieldReached := s.fieldReached.insert n
      fields := s.fields.addInitial (.located n) }.reach n

/-! ### Events of the automaton of calls -/

/-- How many frames of callers are searched for aliases. There are more only if
    methods are recursive. -/
def maxFrames : Nat := 8

/-- Searches the frames below `q` for aliases, unless `q` is the bottom. -/
def searchBelow (s : Solver ω) (q : State) (requester : SolverId) (store : Node) (field : Field)
    (frames : List Statement) : Solver ω :=
  if q = s.bottom then s
  else s.requestCalls q (.out q) (.callerFrames requester store field frames)

/-- Answers a request with a transition of the automaton of calls. -/
def answerCalls (p : Program) (s : Solver ω) (r : CallRequest) (t : CallTransition) : Solver ω :=
  match r with
  | .callerFrames requester store field frames =>
    match t.source with
    | .single _ => s.searchBelow t.target requester store field frames
    | _ =>
      let frames := frames ++ [t.label]
      let s := s.requestCalls t.target (.into t.target) (.returnSites requester store field frames)
      if maxFrames ≤ frames.length then s
      else s.searchBelow t.target requester store field frames
  | .returnSites requester store field frames =>
    match t.source, frames.getLast? with
    | .single v, some site =>
      if (p.successors site).contains t.label then
        let n : State := .located ⟨t.label, v⟩
        s.requestFields n (.outBy n .epsilon) (.returnAlias requester store field frames)
      else s
    | _, _ => s
  | .storeContext requester value => s.tell (.storeContext requester value t.target)
  | .copy requester => s.tell (.copied requester t)

/-- Applies a rule to a transition of weight `w` of the automaton of calls. -/
def applyCallRule (c : Setting ω) (s : Solver ω) (rule : CallRule ω) (t : CallTransition)
    (w : ω) : Solver ω :=
  match rule with
  | .reach =>
    match t.source with
    | .single v => s.reachByCalls ⟨t.label, v⟩
    | _ => s
  | .step source target =>
    s.addCall (callAt target t.target) (extend w (c.weighing.step source target))
  | .push source target site =>
    (s.addCall (callAt target (frameOf target)) (c.weighing.enter source target)).addCall
      ⟨frameOf target, site, t.target⟩ w
  | .pop source target site =>
    let w := extend w (c.weighing.leave source target)
    -- Below the bottom may be any caller.
    if t.target = s.bottom then s.addCall (callAt target t.target) w
    else s.onCalls (.outBy t.target site) (.popMatch target w)
  | .popMatch target weight => s.addCall (callAt target t.target) (extend w weight)
  | .unwind target [] => s.addCall (callAt target t.target) w
  | .unwind target (site :: frames) =>
    if t.target = s.bottom then s.addCall (callAt target t.target) w
    else s.unwind t.target site target frames
  | .request r => s.answerCalls c.program r t

/-! ### Events of the automaton of fields -/

/-- Answers a request with a transition of the automaton of fields. -/
def answerFields (s : Solver ω) (r : FieldRequest) (t : FieldTransition) : Solver ω :=
  match r, t.source with
  | .allocation node, _ => s.tell (.allocation node t.label t.target)
  | .aliasesAt requester store base field, .located n =>
    if t.label = .epsilon ∧ n.stmt = store.stmt ∧ n.var ≠ base then
      s.tell (.aliasAt requester store field n [])
    else s
  | .returnAlias requester store field frames, .located n =>
    s.tell (.aliasAt requester store field n frames)
  | .storesOf requester field continuation, .located n =>
    match n.stmt.action with
    | .store base written value =>
      if t.label = .epsilon ∧ base = n.var ∧ field.sees written then
        s.tell (.storeFound requester continuation n value)
      else s
    | _ => s
  | _, _ => s

/-- Applies a rule to a transition of the automaton of fields. -/
def applyFieldRule (s : Solver ω) (rule : FieldRule) (t : FieldTransition) : Solver ω :=
  match rule with
  | .reach =>
    match t.source with
    | .located n => s.reachByFields n
    | _ => s
  | .step target => s.addField (fieldAt target t.label t.target)
  | .push target field =>
    (s.addField (fieldAt target field (below target field))).addField
      ⟨below target field, t.label, t.target⟩
  | .pop target field =>
    if field.sees t.label then s.onFields (.out t.target) (.popMatch target) else s
  | .popMatch target => s.addField (fieldAt target t.label t.target)
  | .request r => s.answerFields r t

/-! ### Following the call graph -/

/-- Lets `n` follow an edge of the crossing `x`. -/
def cross (c : Setting ω) (s : Solver ω) (x : Crossing) (n : Node) (e : CallEdge) : Solver ω :=
  s.followAll n (x.moves c.program c.scope s.direction n e)

/-- Lets all watchers of `x` follow the edges not followed so far. -/
def catchUp (c : Setting ω) (g : CallGraph) (s : Solver ω) (x : Crossing) : Solver ω :=
  let edges := x.edges g
  let count := s.watches.followedCount x
  if edges.length ≤ count then s
  else
    let nodes := s.watches.nodes x
    let s := { s with watches := s.watches.setFollowed x edges.length }
    (edges.drop count).foldl
      (fun s e => nodes.foldl (fun s n => s.cross c x n e) s) s

/-- Lets `n` watch `x`: it follows the edges the other watchers have followed, and then they all
    follow the rest. The edges of a crossing come to for the first time are asked for. -/
def watch (c : Setting ω) (g : CallGraph) (s : Solver ω) (n : Node) (x : Crossing) :
    Solver ω :=
  let s := if s.watches.isWatched x then s else s.tell (.wanted x)
  let s := { s with watches := s.watches.watch x n }
  let s := ((x.edges g).take (s.watches.followedCount x)).foldl (fun s e => s.cross c x n e) s
  s.catchUp c g x

/-- Catches up with the edges that the call graph got since last time. -/
def refresh (c : Setting ω) (g : CallGraph) (s : Solver ω) : Solver ω :=
  if s.edgesSeen = g.size then s
  else
    let s := { s with edgesSeen := g.size }
    s.watches.inOrder.foldl (fun s x => s.catchUp c g x) s

/-! ### Nodes -/

/-- What `n` leads to. -/
def flowAt (p : Program) (s : Solver ω) (n : Node) : Flow :=
  match s.direction with
  | .forward => Flow.Forward.flow p s.seed n
  | .backward => Flow.Backward.flow p n

/-- Lets the others know what `n` means for them. -/
def tellEffect (s : Solver ω) (n : Node) : Effect → Solver ω
  | .writes base field => s.tell (.fieldWrite n base field)
  | .creates => s.onFields (.out (.located n)) (.request (.allocation n))

/-- Processes a node: follows its moves and watches its crossings. In an excluded method nothing is
    followed, and a method that is said to be unreachable is reported instead. -/
def process (c : Setting ω) (g : CallGraph) (s : Solver ω) (n : Node) : Solver ω :=
  let method := n.stmt.method
  if c.options.checkUnreachable && c.program.isUnreachable method then s.tell (.unreachable n)
  else
    let s := { s with visited := s.visited.insert method }
    if c.scope.excludes method then s
    else
      let flow := s.flowAt c.program n
      let s := s.followAll n flow.moves
      let s := flow.callSites.foldl (fun s site => s.watch c g n (.into site)) s
      let s := flow.callersOf.toList.foldl (fun s m => s.watch c g n (.outOf m)) s
      flow.effect.toList.foldl (fun s e => s.tellEffect n e) s

/-! ### Steps -/

/-- Whether something waits in a queue. -/
def hasWork (s : Solver ω) : WorkQueue → Bool
  | .calls => s.calls.hasEvents
  | .fields => s.fields.hasEvents
  | .nodes => !s.pending.isEmpty

/-- Whether nothing waits in any queue. -/
def isIdle (s : Solver ω) : Bool := !s.hasWork .calls && !s.hasWork .fields && !s.hasWork .nodes

/-- Serves a queue. -/
def serve (c : Setting ω) (g : CallGraph) (s : Solver ω) : WorkQueue → Solver ω
  | .calls =>
    match s.calls.poll? with
    | some (d, calls) =>
      { s with calls }.applyCallRule c d.listener d.transition d.weight
    | none => s
  | .fields =>
    match s.fields.poll? with
    | some (d, fields) => { s with fields }.applyFieldRule d.listener d.transition
    | none => s
  | .nodes =>
    match s.pending.pop? with
    | some (n, pending) => { s with pending }.process c g n
    | none => s

/-- The queue whose turn it is: the first one after the one served last in which something waits. -/
def turn? (s : Solver ω) : Option WorkQueue :=
  [s.last.next, s.last.next.next, s.last].find? s.hasWork

/-- Serves the queue whose turn it is. -/
def step (c : Setting ω) (g : CallGraph) (s : Solver ω) : Solver ω :=
  match s.turn? with
  | some queue => { s with last := queue }.serve c g queue
  | none => s

end DemandAlias.Solver
