import DemandAlias.Proofs.Automaton.Listing
import DemandAlias.Proofs.Solver.Stepping

/-!
# Solvers written out

The listing of a solver has the contents of the solver as plain lists and makes the same
steps (`ListedBy.step`). The call graph is listed by its edges.
-/

namespace DemandAlias

open Std

/-! ### Call graphs -/

/-- The edges of a crossing among those listed. -/
def Crossing.edgesIn (es : List CallEdge) : Crossing → List CallEdge
  | .into site => es.filter fun e => e.site = site
  | .outOf method => es.filter fun e => e.callee = method

namespace CallGraph

/-- The edges of the call graph are those listed, in the order of their arrival. -/
structure ListedBy (g : CallGraph) (es : List CallEdge) : Prop where
  edges : ∀ x : Crossing, x.edges g = x.edgesIn es
  size : g.size = es.length

theorem listedBy_empty : empty.ListedBy [] where
  edges x := by cases x <;> simp [Crossing.edges, Crossing.edgesIn, callees, callers, empty]
  size := rfl

namespace ListedBy

variable {g : CallGraph} {es : List CallEdge}

theorem hasEdge (h : g.ListedBy es) (site : Statement) (m : MethodName) :
    g.hasEdge site m = true ↔ ⟨site, m⟩ ∈ es := by
  have hmem : ⟨site, m⟩ ∈ (Crossing.into site).edges g ↔ ⟨site, m⟩ ∈ es := by
    rw [h.edges]
    simp [Crossing.edgesIn]
  rw [CallGraph.hasEdge, List.contains_iff_mem, ← hmem]
  simp [Crossing.edges]

theorem addEdge (h : g.ListedBy es) (site : Statement) (m : MethodName) :
    (g.addEdge site m).ListedBy (addNew es ⟨site, m⟩) := by
  unfold CallGraph.addEdge addNew
  simp only [h.hasEdge]
  split
  · exact h
  · refine ⟨fun x => ?_, by simp [h.size]⟩
    have hx := h.edges x
    cases x with
    | into s =>
      by_cases hs : site = s <;>
        simp_all [Crossing.edges, Crossing.edgesIn, callees, get_file]
    | outOf n =>
      by_cases hn : m = n <;>
        simp_all [Crossing.edges, Crossing.edgesIn, callers, get_file]

end ListedBy

/-- The edges of the class hierarchy. -/
def hierarchyEdges (p : Program) : List CallEdge :=
  p.invocations.foldl
    (fun es site =>
      match site.call? with
      | some c => (possibleCallees p c).foldl (fun es m => addNew es ⟨site, m⟩) es
      | none => es)
    []

theorem listedBy_classHierarchy (p : Program) : (classHierarchy p).ListedBy (hierarchyEdges p) := by
  refine foldl_rel (r := ListedBy) listedBy_empty fun site _ g es h => ?_
  cases site.call? with
  | some => exact foldl_rel (r := ListedBy) h fun m _ _ _ h => h.addEdge site m
  | none => exact h

end CallGraph

export CallGraph (hierarchyEdges listedBy_classHierarchy)

namespace Solver

/-! ### Listings -/

/-- The contents of a solver that decide what it does. -/
structure Listing (ω : Type) where
  direction : Direction
  seed : Node
  calls : Automaton.Listing State Statement ω (CallRule ω)
  fields : Automaton.Listing State Field Reach FieldRule
  callReached : List Node := []
  fieldReached : List Node := []
  reached : List Node := []
  pending : List Node := []
  crossings : List Crossing := []
  watchers : List (Crossing × Node) := []
  /-- How many edges of each crossing are followed, the latest count first. -/
  followed : List (Crossing × Nat) := []
  edgesSeen : Nat := 0
  callRequests : List (State × CallRequest) := []
  fieldRequests : List (State × FieldRequest) := []
  unwinding : List (State × Statement × Node × List Statement) := []
  outbox : List Message := []
  last : WorkQueue := .calls

variable {ω : Type}

namespace Listing

variable [Weight ω] [DecidableEq ω]

def start (direction : Direction) (seed : Node) : Listing ω where
  direction
  seed
  calls := (Automaton.Listing.listen {} .all .reach).add (callAt seed (.bottom seed)) one
  fields := (Automaton.Listing.listen {} .all .reach).add
    (fieldAt seed .epsilon (.bottom seed)) .one

/-! ### Changes -/

def reach (l : Listing ω) (n : Node) : Listing ω :=
  if n ∈ l.callReached ∧ n ∈ l.fieldReached ∧ n ∉ l.reached then
    { l with reached := l.reached ++ [n], pending := l.pending ++ [n] }
  else l

def onCalls (l : Listing ω) (topic : Topic State Statement) (rule : CallRule ω) : Listing ω :=
  { l with calls := l.calls.listen topic rule }

def onFields (l : Listing ω) (topic : Topic State Field) (rule : FieldRule) : Listing ω :=
  { l with fields := l.fields.listen topic rule }

def make (l : Listing ω) : Change ω → Listing ω
  | .call t w => { l with calls := l.calls.add t w }
  | .field t => { l with fields := l.fields.add t .one }
  | .callRule topic rule => l.onCalls topic rule
  | .fieldRule topic rule => l.onFields topic rule
  | .reachByCalls n =>
    if n ∈ l.callReached then l else { l with callReached := n :: l.callReached }.reach n
  | .reachByFields n =>
    if n ∈ l.fieldReached then l else { l with fieldReached := n :: l.fieldReached }.reach n
  | .message m => { l with outbox := m :: l.outbox }
  | .callRequest state topic r =>
    if (state, r) ∈ l.callRequests then l
    else { l with callRequests := (state, r) :: l.callRequests }.onCalls topic (.request r)
  | .fieldRequest state topic r =>
    if (state, r) ∈ l.fieldRequests then l
    else { l with fieldRequests := (state, r) :: l.fieldRequests }.onFields topic (.request r)
  | .unwind state label target frames =>
    if (state, label, target, frames) ∈ l.unwinding then l
    else { l with unwinding := (state, label, target, frames) :: l.unwinding }.onCalls
      (.outBy state label) (.unwind target frames)

def makeAll (l : Listing ω) (xs : List (Change ω)) : Listing ω := xs.foldl make l

/-! ### Crossings -/

def followedCount (l : Listing ω) (x : Crossing) : Nat := (valueOf? l.followed x).getD 0

def catchUp (c : Setting ω) (es : List CallEdge) (l : Listing ω) (x : Crossing) : Listing ω :=
  let edges := x.edgesIn es
  if edges.length ≤ l.followedCount x then l
  else { l with followed := (x, edges.length) :: l.followed }.makeAll
    ((edges.drop (l.followedCount x)).flatMap fun e =>
      (valuesOf l.watchers x).flatMap fun n => x.changes c l.direction n e)

def watch (c : Setting ω) (es : List CallEdge) (l : Listing ω) (n : Node) (x : Crossing) :
    Listing ω :=
  let l := if x ∈ l.crossings then l else { l with outbox := .wanted x :: l.outbox }
  let l := { l with crossings := addNew l.crossings x, watchers := l.watchers ++ [(x, n)] }
  let l := l.makeAll (((x.edgesIn es).take (l.followedCount x)).flatMap fun e =>
    x.changes c l.direction n e)
  l.catchUp c es x

def refresh (c : Setting ω) (es : List CallEdge) (l : Listing ω) : Listing ω :=
  if l.edgesSeen = es.length then l
  else
    let l := { l with edgesSeen := es.length }
    let inOrder := l.crossings.filter Crossing.isInto ++ l.crossings.filter fun x => !x.isInto
    inOrder.foldl (fun l x => l.catchUp c es x) l

/-! ### Steps -/

def process (c : Setting ω) (es : List CallEdge) (l : Listing ω) (n : Node) : Listing ω :=
  if c.options.checkUnreachable && c.program.isUnreachable n.stmt.method then
    { l with outbox := .unreachable n :: l.outbox }
  else if c.scope.excludes n.stmt.method then l
  else
    let flow := c.program.flow l.direction l.seed n
    let l := l.makeAll (flow.moves.flatMap (Move.changes n))
    let l := flow.crossings.foldl (fun l x => l.watch c es n x) l
    l.makeAll (flow.effect.toList.flatMap (Effect.changes n))

def hasWork (l : Listing ω) : WorkQueue → Bool
  | .calls => !l.calls.events.isEmpty
  | .fields => !l.fields.events.isEmpty
  | .nodes => !l.pending.isEmpty

def isIdle (l : Listing ω) : Bool := !l.hasWork .calls && !l.hasWork .fields && !l.hasWork .nodes

def serve (c : Setting ω) (es : List CallEdge) (l : Listing ω) : WorkQueue → Listing ω
  | .calls =>
    match l.calls.events with
    | (rule, t) :: events =>
      { l with calls := { l.calls with events } }.makeAll
        (rule.changes c (.bottom l.seed) t ((l.calls.weight? t).getD zero))
    | [] => l
  | .fields =>
    match l.fields.events with
    | (rule, t) :: events =>
      { l with fields := { l.fields with events } }.makeAll (rule.changes t)
    | [] => l
  | .nodes =>
    match l.pending with
    | n :: pending => { l with pending }.process c es n
    | [] => l

def step (c : Setting ω) (es : List CallEdge) (l : Listing ω) : Listing ω :=
  match [l.last.next, l.last.next.next, l.last].find? l.hasWork with
  | some queue => { l with last := queue }.serve c es queue
  | none => l

end Listing

/-- The listing has the contents of the solver. -/
structure ListedBy (s : Solver ω) (l : Listing ω) : Prop where
  direction : s.direction = l.direction
  seed : s.seed = l.seed
  calls : s.calls.ListedBy l.calls
  fields : s.fields.ListedBy l.fields
  callReached : ∀ n, s.callReached.contains n = true ↔ n ∈ l.callReached
  fieldReached : ∀ n, s.fieldReached.contains n = true ↔ n ∈ l.fieldReached
  reached : s.reached.toList = l.reached
  pending : s.pending.toList = l.pending
  crossings : s.watches.crossings.toList = l.crossings
  watchers : ∀ x, s.watches.nodes x = valuesOf l.watchers x
  followed : ∀ x, s.watches.followed[x]? = valueOf? l.followed x
  edgesSeen : s.edgesSeen = l.edgesSeen
  callRequests : ∀ r, s.callRequests.contains r = true ↔ r ∈ l.callRequests
  fieldRequests : ∀ r, s.fieldRequests.contains r = true ↔ r ∈ l.fieldRequests
  unwinding : ∀ u, s.unwinding.contains u = true ↔ u ∈ l.unwinding
  outbox : s.outbox = l.outbox
  last : s.last = l.last

namespace ListedBy

variable {s : Solver ω} {l : Listing ω}

/-! ### Changes -/

section

variable (h : s.ListedBy l)
include h

theorem reach (n : Node) : (s.reach n).ListedBy (l.reach n) := by
  have hreached : s.reached.contains n = true ↔ n ∈ l.reached := by
    rw [OrderedSet.contains_iff, ← h.reached]
    exact Iff.rfl
  unfold Solver.reach Listing.reach
  simp only [and_eq_true, Bool.not_eq_true', ← Bool.not_eq_true, h.callReached,
    h.fieldReached, hreached, and_assoc]
  split
  · next hn =>
    refine { h with reached := ?_, pending := by simp [h.pending] }
    rw [OrderedSet.toList_insert, if_neg (by rw [hreached]; exact hn.2.2), h.reached]
  · exact h

theorem onCalls (topic : Topic State Statement) (rule : CallRule ω) :
    (s.onCalls topic rule).ListedBy (l.onCalls topic rule) :=
  { h with calls := h.calls.listen topic rule }

theorem onFields (topic : Topic State Field) (rule : FieldRule) :
    (s.onFields topic rule).ListedBy (l.onFields topic rule) :=
  { h with fields := h.fields.listen topic rule }

theorem followedCount (x : Crossing) :
    s.watches.followedCount x = l.followedCount x := by
  rw [Watches.followedCount, HashMap.getD_eq_getD_getElem?, h.followed]
  rfl

/-- The node is noted as a watcher. -/
theorem addWatcher (n : Node) (x : Crossing) :
    ListedBy { s with watches := s.watches.watch x n }
      { l with crossings := addNew l.crossings x, watchers := l.watchers ++ [(x, n)] } :=
  { h with
    crossings := by rw [← h.crossings]; exact OrderedSet.toList_insert_eq ..
    watchers := fun y => Multimap.get_file_eq h.watchers x y n }

/-- Something waits in a queue exactly if the listing says so. -/
theorem hasWork (queue : WorkQueue) : s.hasWork queue = l.hasWork queue := by
  cases queue with
  | calls => rw [Solver.hasWork, Automaton.hasEvents, Queue.isEmpty_eq, h.calls.events]; rfl
  | fields => rw [Solver.hasWork, Automaton.hasEvents, Queue.isEmpty_eq, h.fields.events]; rfl
  | nodes => rw [Solver.hasWork, Queue.isEmpty_eq, h.pending]; rfl

theorem isIdle : s.isIdle = l.isIdle := by
  simp only [Solver.isIdle, Listing.isIdle, h.hasWork]

variable [Weight ω] [DecidableEq ω]

theorem make (x : Change ω) : (s.make x).ListedBy (l.make x) := by
  cases x with
  | call t w => exact { h with calls := h.calls.add t w }
  | field t => exact { h with fields := h.fields.add t Reach.one }
  | callRule topic rule => exact h.onCalls topic rule
  | fieldRule topic rule => exact h.onFields topic rule
  | message m => exact { h with outbox := congrArg (m :: ·) h.outbox }
  | reachByCalls n =>
    simp only [Solver.make, Solver.reachByCalls, Listing.make, h.callReached]
    split
    · exact h
    · refine ListedBy.reach ?_ n
      exact { h with
        calls := h.calls.states ..
        callReached := contains_insert_iff h.callReached n }
  | reachByFields n =>
    simp only [Solver.make, Solver.reachByFields, Listing.make, h.fieldReached]
    split
    · exact h
    · refine ListedBy.reach ?_ n
      exact { h with
        fields := h.fields.states ..
        fieldReached := contains_insert_iff h.fieldReached n }
  | callRequest state topic r =>
    simp only [Solver.make, Solver.requestCalls, Listing.make, h.callRequests]
    split
    · exact h
    · refine ListedBy.onCalls ?_ topic (.request r)
      exact { h with callRequests := contains_insert_iff h.callRequests (state, r) }
  | fieldRequest state topic r =>
    simp only [Solver.make, Solver.requestFields, Listing.make, h.fieldRequests]
    split
    · exact h
    · refine ListedBy.onFields ?_ topic (.request r)
      exact { h with fieldRequests := contains_insert_iff h.fieldRequests (state, r) }
  | unwind state label target frames =>
    simp only [Solver.make, Solver.unwind, Listing.make, h.unwinding]
    split
    · exact h
    · refine ListedBy.onCalls ?_ _ _
      exact { h with unwinding := contains_insert_iff h.unwinding (state, label, target, frames) }

theorem makeAll (xs : List (Change ω)) : (s.makeAll xs).ListedBy (l.makeAll xs) :=
  foldl_rel (r := ListedBy) h fun x _ _ _ h => h.make x

/-! ### Crossings -/

theorem cross (c : Setting ω) (x : Crossing) (n : Node) (edges : List CallEdge) :
    (edges.foldl (fun s e => s.cross c x n e) s).ListedBy
      (l.makeAll (edges.flatMap fun e => x.changes c l.direction n e)) := by
  rw [foldl_cross_edges, h.direction]
  exact h.makeAll _

theorem crossAll (c : Setting ω) (x : Crossing) (nodes : List Node) (edges : List CallEdge) :
    (edges.foldl (fun s e => nodes.foldl (fun s n => s.cross c x n e) s) s).ListedBy
      (l.makeAll (edges.flatMap fun e => nodes.flatMap fun n => x.changes c l.direction n e)) := by
  rw [foldl_cross, h.direction]
  exact h.makeAll _

end

variable [Weight ω] [DecidableEq ω] {c : Setting ω} {g : CallGraph} {es : List CallEdge}

theorem start (id : SolverId) (direction : Direction) (seed : Node) :
    (Solver.start id direction seed : Solver ω).ListedBy (.start direction seed) where
  direction := rfl
  seed := rfl
  calls := ((Automaton.listedBy_empty.states _ _ _).listen ..).add ..
  fields := ((Automaton.listedBy_empty.states _ _ _).listen ..).add
    (fieldAt seed .epsilon (.bottom seed)) Reach.one
  callReached n := by simp [Solver.start, Listing.start]
  fieldReached n := by simp [Solver.start, Listing.start]
  reached := rfl
  pending := rfl
  crossings := rfl
  watchers x := get_empty x
  followed x := HashMap.getElem?_empty
  edgesSeen := rfl
  callRequests r := by simp [Solver.start, Listing.start]
  fieldRequests r := by simp [Solver.start, Listing.start]
  unwinding u := by simp [Solver.start, Listing.start]
  outbox := rfl
  last := rfl

theorem catchUp (hg : g.ListedBy es) (h : s.ListedBy l) (x : Crossing) :
    (s.catchUp c g x).ListedBy (l.catchUp c es x) := by
  simp only [Solver.catchUp, Listing.catchUp, hg.edges, h.followedCount, h.watchers]
  split
  · exact h
  · have hnoted : ListedBy
        { s with watches := s.watches.setFollowed x (x.edgesIn es).length }
        { l with followed := (x, (x.edgesIn es).length) :: l.followed } :=
      { h with followed := fun y => getElem?_insert_eq h.followed x y _ }
    exact hnoted.crossAll c x _ _

section

variable (hg : g.ListedBy es) (h : s.ListedBy l)
include hg h

theorem watch (n : Node) (x : Crossing) : (s.watch c g n x).ListedBy (l.watch c es n x) := by
  have hwatched : s.watches.isWatched x = true ↔ x ∈ l.crossings := by
    rw [Watches.isWatched, OrderedSet.contains_iff, ← h.crossings]
    exact Iff.rfl
  have hwanted : ListedBy (if s.watches.isWatched x then s else s.tell (.wanted x))
      (if x ∈ l.crossings then l else { l with outbox := .wanted x :: l.outbox }) := by
    simp only [hwatched]
    split
    · exact h
    · exact { h with outbox := congrArg (Message.wanted x :: ·) h.outbox }
  have hadded := hwanted.addWatcher n x
  unfold Solver.watch Listing.watch
  refine catchUp hg ?_ x
  rw [hg.edges, hadded.followedCount]
  exact hadded.cross c x n _

theorem refresh : (s.refresh c g).ListedBy (l.refresh c es) := by
  unfold Solver.refresh Listing.refresh
  rw [h.edgesSeen, hg.size]
  split
  · exact h
  · simp only [Watches.inOrder, h.crossings]
    refine foldl_rel (r := ListedBy) ?_ fun x _ _ _ h => catchUp hg h x
    exact { h with edgesSeen := rfl }

/-! ### Steps -/

theorem process (n : Node) : (s.process c g n).ListedBy (l.process c es n) := by
  have hflow : s.flowAt c.program n = c.program.flow l.direction l.seed n := by
    rw [flowAt_eq, h.direction, h.seed]
  unfold Listing.process
  split
  · next hunreachable =>
    simp only [Solver.process, hunreachable, if_true]
    exact h.make (.message (.unreachable n))
  next hunreachable =>
  split
  · next hexcluded =>
    simp only [Solver.process, hunreachable, hexcluded, if_true]
    exact { h with }
  · next hincluded =>
    obtain ⟨hreported, -⟩ | ⟨-, visited, -, ⟨hexcluded, -⟩ | ⟨-, s₁, s₂, rfl, rfl, hprocess⟩⟩ :=
      process_cases c g s n
    · exact absurd hreported hunreachable
    · exact absurd hexcluded hincluded
    · rw [hprocess, hflow]
      have hvisited : ListedBy { s with visited } l := { h with }
      refine makeAll ?_ _
      exact foldl_rel (r := ListedBy) (hvisited.makeAll _) fun x _ _ _ h => watch hg h n x

end

theorem serve (hg : g.ListedBy es) (h : s.ListedBy l) (queue : WorkQueue) :
    (s.serve c g queue).ListedBy (l.serve c es queue) := by
  cases queue with
  | calls =>
    cases hevents : l.calls.events with
    | nil =>
      have hnone := (Queue.pop?_eq_none_iff _).2 (h.calls.events.trans hevents)
      simpa only [Solver.serve, Listing.serve, Automaton.poll?, hnone, hevents] using h
    | cons event events =>
      obtain ⟨rule, t⟩ := event
      obtain ⟨calls, hpoll, hcalls⟩ := h.calls.poll hevents
      have hrest : ListedBy { s with calls } { l with calls := { l.calls with events } } :=
        { h with calls := hcalls }
      have hbottom : ({ s with calls } : Solver ω).bottom = .bottom l.seed :=
        congrArg State.bottom h.seed
      simp only [Solver.serve, Listing.serve, hpoll, hevents, applyCallRule_eq, hbottom]
      exact hrest.makeAll _
  | fields =>
    cases hevents : l.fields.events with
    | nil =>
      have hnone := (Queue.pop?_eq_none_iff _).2 (h.fields.events.trans hevents)
      simpa only [Solver.serve, Listing.serve, Automaton.poll?, hnone, hevents] using h
    | cons event events =>
      obtain ⟨rule, t⟩ := event
      obtain ⟨fields, hpoll, hfields⟩ := h.fields.poll hevents
      have hrest : ListedBy { s with fields } { l with fields := { l.fields with events } } :=
        { h with fields := hfields }
      simp only [Solver.serve, Listing.serve, hpoll, hevents, applyFieldRule_eq]
      exact hrest.makeAll _
  | nodes =>
    cases hnodes : l.pending with
    | nil =>
      have hnone := (Queue.pop?_eq_none_iff _).2 (h.pending.trans hnodes)
      simpa only [Solver.serve, Listing.serve, hnone, hnodes] using h
    | cons n rest =>
      obtain ⟨pending, hpop, hpending⟩ := Queue.exists_pop? (h.pending.trans hnodes)
      have hrest : ListedBy { s with pending } { l with pending := rest } :=
        { h with pending := hpending }
      simp only [Solver.serve, Listing.serve, hpop, hnodes]
      exact process hg hrest n

/-- A step of a solver is that of its listing. -/
theorem step (hg : g.ListedBy es) (h : s.ListedBy l) : (s.step c g).ListedBy (l.step c es) := by
  have hturn : s.turn? = [l.last.next, l.last.next.next, l.last].find? l.hasWork := by
    rw [turn?, h.last, funext h.hasWork]
  unfold Solver.step Listing.step
  rw [hturn]
  cases [l.last.next, l.last.next.next, l.last].find? l.hasWork with
  | some queue =>
    have hlast : ListedBy { s with last := queue } { l with last := queue } := { h with last := rfl }
    exact serve hg hlast queue
  | none => exact h

end ListedBy

end Solver

end DemandAlias
