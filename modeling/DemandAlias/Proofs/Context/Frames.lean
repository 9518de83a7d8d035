import DemandAlias.Proofs.Run.Vocabulary
import DemandAlias.Proofs.Solver.Sending

/-!
# Calling contexts

The automaton of calls of a solver says which stacks of calls a local has at a statement. Its
transitions are of two kinds (`Run.IsCall`): a local of a method leads from a statement of the
method to a *calling context* of it, and a frame of a method leads from a call site of the method,
along an edge of the call graph, to a calling context of the method that calls. A calling context
is the bottom or a frame. Frames are made where methods are entered: going forward at the start, for
a parameter or the receiver, and going backward where something is returned, for what is
(`Program.IsFrame`). Solvers that search backward also have copies of frames that solvers that go
forward have made, but not copies of copies (`Run.HasFrame`).

Edges are found as a run goes on, and so are the frames to be copied. What a solver may have
therefore depends on how far the run has come (`Extent`). With what was found so far, the solver
comes to nothing else (`Bound.closed_framing`), and what is allowed now is allowed later on
(`RunBound.framing_le`).
-/

namespace DemandAlias

open Solver

variable {topic : Topic State Statement} {direction : Direction} {t : CallTransition} {n : Node}

variable {ω : Type} {c : Setting ω}
variable {m : MethodName} {e state : State}

/-! ### Frames -/

/-- The node is a statement of the program with a local of its method. -/
def Program.Owns (p : Program) (n : Node) : Prop :=
  n.stmt ∈ p.statements ∧ n.var.method = n.stmt.method

/-- The statement is a call of the program. -/
def Program.HasSite (p : Program) (site : Statement) : Prop :=
  site ∈ p.statements ∧ site.isCall = true

/-- The state is a frame of the method `m` that a solver makes that goes in this direction. -/
inductive Program.IsFrame (p : Program) (m : MethodName) : Direction → State → Prop
  | entry {n : Node} {method : Method} (hn : p.Owns n) (hm : n.stmt.method = m)
      (hmethod : p.method? m = some method) (hstart : method.start? = some n.stmt)
      (hv : n.var ∈ method.params ++ method.receiver.toList) : IsFrame p m .forward (frameOf n)
  | exit {n : Node} (hn : p.Owns n) (hm : n.stmt.method = m)
      (haction : n.stmt.action = .ret (some (.var n.var))) : IsFrame p m .backward (frameOf n)

/-- The state is one of the automaton of calls. -/
def Solver.HasState (s : Solver ω) (e : State) : Prop :=
  ∃ t ∈ s.calls.transitions, t.source = e ∨ t.target = e

namespace Run

/-- The state is a frame of the method `m` in a solver that goes in this direction: one that it has
    made or, going backward, the copy of one of a solver that goes forward and has made it. -/
inductive HasFrame (p : Program) (r : Run ω) (direction : Direction) (m : MethodName) :
    State → Prop
  | own {e : State} (he : p.IsFrame m direction e) : HasFrame p r direction m e
  | copy {id : SolverId} {s : Solver ω} {e : State} (hdirection : direction = .backward)
      (hs : r.solver? id = some s) (hforward : s.direction = .forward) (he : p.IsFrame m .forward e)
      (hhas : s.HasState e) : HasFrame p r direction m (.generated e (.imported id))

/-- The state is a calling context of the method `m` in the solver. -/
def IsContext (p : Program) (r : Run ω) (s : Solver ω) (m : MethodName) (q : State) : Prop :=
  q = s.bottom ∨ r.HasFrame p s.direction m q

/-- The transition leads from a local of a method, or from the frame of a method that is called,
    to a calling context. -/
inductive IsCall (p : Program) (r : Run ω) (s : Solver ω) : CallTransition → Prop
  | node {n : Node} {q : State} (hn : p.Owns n) (hq : r.IsContext p s n.stmt.method q) :
    IsCall p r s (callAt n q)
  | frame {e q : State} {site : Statement} {m : MethodName} (he : r.HasFrame p s.direction m e)
      (hsite : p.HasSite site) (hedge : m ∈ r.graph.callees site)
      (hq : r.IsContext p s site.method q) : IsCall p r s ⟨e, site, q⟩

/-- All transitions of the automata of calls are of one of the two kinds, and none leads out of the
    bottom. -/
def ContextsFormed (p : Program) (r : Run ω) : Prop :=
  ∀ id s, r.solver? id = some s → ∀ t ∈ s.calls.transitions, r.IsCall p s t ∧ t.source ≠ s.bottom

end Run

theorem Program.IsFrame.exists_node {p : Program} (h : p.IsFrame m direction e) :
    ∃ n, e = frameOf n := by
  cases h with
  | entry | exit => exact ⟨_, rfl⟩

/-! ### How far a run has come -/

/-- How far a run has come: which edges were found, and which states the solver of a query has. -/
structure Extent where
  graph : CallGraph
  has : Query → State → Prop

/-- The one run has come at least as far as the other. -/
structure Extent.Le (w w' : Extent) : Prop where
  callees : ∀ {site m}, m ∈ w.graph.callees site → m ∈ w'.graph.callees site
  has : ∀ {q e}, w.has q e → w'.has q e

/-- How far the run has come. -/
def Run.extent (r : Run ω) : Extent where
  graph := r.graph
  has q e := ∃ id, r.Names id q ∧ r.Has id fun s => s.HasState e

theorem Run.Grows.extent {r r' : Run ω} (h : Run.Grows r r') : r.extent.Le r'.extent where
  callees hm := CallGraph.Grows.mem_edges_into.1
    ((h.graph.edges _).subset (CallGraph.Grows.mem_edges_into.2 hm))
  has := by
    rintro q e ⟨id, hq, s, hs, t, ht, he⟩
    obtain ⟨s', hs', hgrows⟩ := h.solvers hs
    exact ⟨id, h.names hq, s', hs', t, hgrows.calls ht, he⟩

/-! ### What a solver may have -/

section Framing

variable (p : Program) (w : Extent) (N : Naming) (q : Query)

/-- A frame of the method `m` in the solver of `q`. -/
inductive FrameAt (m : MethodName) : State → Prop
  | own {e : State} (he : p.IsFrame m q.direction e) : FrameAt m e
  | copy {id : SolverId} {q' : Query} {e : State} (hq : q.direction = .backward) (hid : N id q')
      (hforward : q'.direction = .forward) (he : p.IsFrame m .forward e) (hhas : w.has q' e) :
    FrameAt m (.generated e (.imported id))

/-- A calling context of the method `m` in the solver of `q`. -/
def ContextAt (m : MethodName) (state : State) : Prop :=
  state = .bottom q.node ∨ FrameAt p w N q m state

/-- A call site leads on from the frame of a method that is called there. -/
def LeavesFrame (e : State) (site : Statement) : Prop :=
  ∃ m, FrameAt p w N q m e ∧ p.HasSite site ∧ m ∈ w.graph.callees site

/-- The transition is one that the solver of `q` may have. -/
structure Transition.FramedAt (t : CallTransition) : Prop where
  source : (∃ v, t.source = .single v ∧ p.Owns ⟨t.label, v⟩) ∨ LeavesFrame p w N q t.source t.label
  target : ContextAt p w N q t.label.method t.target

/-- The topic is about transitions at statements of the method. -/
def Topic.At (topic : Topic State Statement) (m : MethodName) : Prop :=
  ∃ state label, topic = .outBy state label ∧ label.method = m

/-- The statement after which one is that has left the frames of these call sites, being at `stmt`
    before. -/
def landing (stmt : Statement) (frames : List Statement) : Statement := frames.getLast?.getD stmt

def CallRequest.FramedAt (topic : Topic State Statement) : CallRequest → Prop
  | .callerFrames _ store _ _ | .returnSites _ store _ _ => p.Owns store
  | .storeContext requester value =>
    Vocabulary.Asked N q requester ∧ p.Owns value ∧ topic.At value.stmt.method
  | .copy requester =>
    Vocabulary.Asked N q requester ∧ ∃ m e, topic = .out e ∧ FrameAt p w N q m e

def CallRule.FramedAt (topic : Topic State Statement) : CallRule ω → Prop
  | .reach => True
  | .step _ n | .popMatch n _ => p.Owns n ∧ topic.At n.stmt.method
  | .push _ n site => p.Owns n ∧ p.IsFrame n.stmt.method q.direction (frameOf n) ∧ p.HasSite site ∧
    n.stmt.method ∈ w.graph.callees site ∧ topic.At site.method
  | .pop _ n site => p.Owns n ∧ site.method = n.stmt.method
  | .unwind n frames => p.Owns n ∧
    ∃ state label, topic = .outBy state label ∧ (landing label frames).method = n.stmt.method
  | .request r => r.FramedAt p w N q topic

def FieldRequest.FramedAt (topic : Topic State Field) : FieldRequest → Prop
  | .allocation n => q.direction = .backward ∧ p.Owns n
  | .aliasesAt _ store _ _ => p.Owns store
  | .returnAlias _ store _ frames => p.Owns store ∧
    ∃ n l, topic = .outBy (.located n) l ∧ (landing store.stmt frames).method = n.stmt.method
  | .storesOf requester _ _ => Vocabulary.Asked N q requester

def FieldRule.FramedAt (topic : Topic State Field) : FieldRule → Prop
  | .reach => True
  | .step n | .push n _ | .pop n _ | .popMatch n => p.Owns n
  | .request r => r.FramedAt p N q topic

def Message.FramedAt : Message → Prop
  | .wanted (.into site) => site ∈ p.statements
  | .wanted (.outOf _) | .unreachable _ => True
  | .fieldWrite store base _ => p.Owns store ∧ p.Owns ⟨store.stmt, base⟩
  | .allocation n _ _ => q.direction = .backward ∧ p.Owns n
  | .aliasAt _ store _ other frames => p.Owns store ∧ p.Owns other ∧
    (landing store.stmt frames).method = other.stmt.method
  | .storeFound requester _ store value =>
    Vocabulary.Asked N q requester ∧ p.Owns store ∧ p.Owns ⟨store.stmt, value⟩
  | .storeContext requester value context => Vocabulary.Asked N q requester ∧ p.Owns value ∧
    ContextAt p w N q value.stmt.method context
  | .copied requester t => Vocabulary.Asked N q requester ∧
    LeavesFrame p w N q t.source t.label ∧ ContextAt p w N q t.label.method t.target

/-- The contexts that the message tells of are states that the solver of `q` has. -/
def Message.KnownAt : Message → Prop
  | .storeContext _ _ context => w.has q context
  | .copied _ t => w.has q t.source ∧ w.has q t.target
  | _ => True

def Crossing.FramedAt (n : Node) : Crossing → Prop
  | .into site => p.HasSite site ∧ site.method = n.stmt.method
  | .outOf _ => True

/-- What the solver of `q` may have, with messages of which `K` holds. -/
def Bound.framing (K : Message → Prop) : Bound ω where
  call t := t.FramedAt p w N q
  field t := ∀ n, t.source = .located n → p.Owns n
  callRule topic rule := rule.FramedAt p w N q topic
  fieldRule topic rule := rule.FramedAt p N q topic
  message m := m.FramedAt p w N q ∧ K m
  watcher x n := x.FramedAt p n

/-- What a run may have that has come that far. -/
def RunBound.framing (graph : CallGraph) : RunBound ω where
  graph
  query q := p.Owns q.node
  solver N q := .framing p w N q (Message.KnownAt w q)
  edge _ e := p.HasEdge e
  allocation _ a := p.Owns a.node
  subscriber _ _ k :=
    match k with
    | .resolve site _ => site ∈ p.statements
    | .fieldWrite _ store _ _ => p.Owns store
    | .aliases => True

end Framing

variable {p : Program} {w w' : Extent} {N N' : Naming} {q : Query}

/-! ### Going on, with more solvers -/

section Mono

variable (hw : w.Le w') (hN : N.Le N')

include hw hN

theorem FrameAt.mono {m : MethodName} {e : State} (h : FrameAt p w N q m e) :
    FrameAt p w' N' q m e := by
  cases h with
  | own he => exact .own he
  | copy hq hid hforward he hhas => exact .copy hq (hN hid) hforward he (hw.has hhas)

theorem ContextAt.mono {m : MethodName} {e : State} (h : ContextAt p w N q m e) :
    ContextAt p w' N' q m e := h.imp_right (FrameAt.mono hw hN)

theorem LeavesFrame.mono {e : State} {site : Statement} (h : LeavesFrame p w N q e site) :
    LeavesFrame p w' N' q e site :=
  h.imp fun _ => .imp (FrameAt.mono hw hN) (.imp_right hw.callees)

theorem Transition.FramedAt.mono (h : t.FramedAt p w N q) :
    t.FramedAt p w' N' q :=
  ⟨h.source.imp_right (LeavesFrame.mono hw hN), ContextAt.mono hw hN h.target⟩

theorem CallRule.FramedAt.mono {rule : CallRule ω} (h : rule.FramedAt p w N q topic) :
    rule.FramedAt p w' N' q topic := by
  cases rule with
  | push =>
    obtain ⟨hn, hframe, hsite, hedge, htopic⟩ := h
    exact ⟨hn, hframe, hsite, hw.callees hedge, htopic⟩
  | request r =>
    cases r with
    | callerFrames _ _ _ _ | returnSites _ _ _ _ => exact h
    | storeContext => exact And.imp_left (Vocabulary.Asked.mono hN) h
    | copy =>
      obtain ⟨hasked, m, e, htopic, he⟩ := h
      exact ⟨hasked.mono hN, m, e, htopic, he.mono hw hN⟩
  | _ => exact h

omit hw in
theorem FieldRule.FramedAt.mono {topic : Topic State Field} {rule : FieldRule}
    (h : rule.FramedAt p N q topic) : rule.FramedAt p N' q topic := by
  cases rule with
  | request r =>
    cases r with
    | storesOf => exact Vocabulary.Asked.mono hN h
    | _ => exact h
  | _ => exact h

theorem Message.FramedAt.mono {m : Message} (h : m.FramedAt p w N q) : m.FramedAt p w' N' q := by
  cases m with
  | wanted x => cases x <;> exact h
  | storeFound => exact And.imp_left (Vocabulary.Asked.mono hN) h
  | storeContext =>
    exact And.imp (Vocabulary.Asked.mono hN) (And.imp_right (ContextAt.mono hw hN)) h
  | copied =>
    exact And.imp (Vocabulary.Asked.mono hN)
      (And.imp (LeavesFrame.mono hw hN) (ContextAt.mono hw hN)) h
  | _ => exact h

omit hN in
theorem Message.KnownAt.mono {m : Message} (h : m.KnownAt w q) : m.KnownAt w' q := by
  cases m with
  | storeContext => exact hw.has h
  | copied => exact And.imp hw.has hw.has h
  | _ => trivial

theorem Bound.framing_le : (framing p w N q (Message.KnownAt w q) : Bound ω).Le
    (.framing p w' N' q (Message.KnownAt w' q)) where
  call h := h.mono hw hN
  field h := h
  callRule h := CallRule.FramedAt.mono hw hN h
  fieldRule h := FieldRule.FramedAt.mono hN h
  message h := ⟨h.1.mono hw hN, h.2.mono hw⟩
  watcher h := h

end Mono

theorem Extent.Le.refl (w : Extent) : w.Le w := ⟨id, id⟩

theorem RunBound.framing_le (hw : w.Le w') (graph : CallGraph) :
    (framing p w graph : RunBound ω).Le (.framing p w' graph) where
  graph := rfl
  query h := h
  solver _ _ := Bound.framing_le hw fun _ _ h => h
  edge h := h
  allocation h := h
  subscriber h := h

/-! ### Contexts -/

theorem Program.IsFrame.ne_bottom (h : p.IsFrame m direction e) (n : Node) :
    e ≠ .bottom n := by
  obtain ⟨n', rfl⟩ := h.exists_node
  rintro ⟨⟩

theorem FrameAt.ne_bottom (h : FrameAt p w N q m e) (n : Node) : e ≠ .bottom n := by
  cases h with
  | own he => exact he.ne_bottom n
  | copy => rintro ⟨⟩

theorem FrameAt.ne_single (h : FrameAt p w N q m e) (v : Local) : e ≠ .single v := by
  cases h with
  | own he =>
    obtain ⟨n, rfl⟩ := he.exists_node
    rintro ⟨⟩
  | copy => rintro ⟨⟩

theorem framedAt_callAt (hn : p.Owns n) (h : ContextAt p w N q n.stmt.method state) :
    (callAt n state).FramedAt p w N q :=
  ⟨.inl ⟨n.var, rfl, hn⟩, h⟩

theorem owns_of_framedAt (h : (callAt n state).FramedAt p w N q) : p.Owns n := by
  rcases h.source with ⟨v, hv, hn⟩ | ⟨m, hframe, -⟩
  · cases hv
    exact hn
  · exact absurd rfl (hframe.ne_single n.var)

/-- A transition leads to a context of the method that its topic is about. -/
theorem Transition.FramedAt.context (h : t.FramedAt p w N q) (htopic : topic ∈ t.topics)
    (hm : topic.At m) :
    ContextAt p w N q m t.target := by
  obtain ⟨state, label, rfl, rfl⟩ := hm
  simp only [topics, mem_cons, not_mem_nil, or_false, reduceCtorEq,
    Topic.outBy.injEq, false_or] at htopic
  rw [htopic.2]
  exact h.target

section

variable {sender : SolverId} (hsender : N sender q) (hq : q.direction = .forward) {q' : Query}
  (hq' : q'.direction = .backward)
include hsender hq hq'

/-- The frame that a solver that goes backward has for one that another has made going forward. -/
theorem FrameAt.copyOf (h : FrameAt p w N q m state) (hhas : w.has q state) :
    FrameAt p w N q' m (q.copyOf sender q' state) := by
  rw [Query.copyOf, if_neg (h.ne_bottom q.node)]
  cases h with
  | own he =>
    rw [hq] at he
    exact .copy hq' hsender hq he hhas
  | copy hbackward =>
    -- Only solvers that go backward have copies, so that there are no copies of copies.
    rw [hq] at hbackward
    cases hbackward

theorem ContextAt.copyOf (h : ContextAt p w N q m state) (hhas : w.has q state) :
    ContextAt p w N q' m (q.copyOf sender q' state) := by
  rcases h with rfl | hframe
  · exact .inl (if_pos rfl)
  · exact .inr (hframe.copyOf hsender hq hq' hhas)

end

/-! ### Nodes and moves -/

section Moves

variable (hp : p.IsLaidOut) (howned : p.LocalsOwned)

include hp howned

section

variable {s : Statement} (hs : s ∈ p.statements) {v : Local} (hv : v ∈ s.locals)
include hs hv

theorem method_of_mem_locals : v.method = s.method := by
  obtain ⟨m, hm, hs⟩ := (p.mem_statements_iff s).1 hs
  rw [(hp m hm).method_of_mem hs]
  refine howned m hm v (mem_append_right _ ?_)
  exact mem_flatMap.2 ⟨s, Array.mem_toList_iff.2 hs, hv⟩

theorem owns_of_mem_locals : p.Owns ⟨s, v⟩ := ⟨hs, method_of_mem_locals hp howned hs hv⟩

end

/-- Moves over a statement are to locals of the method. -/
theorem owns_of_flow {seed n : Node} (hn : p.Owns n) {m : Move}
    (hm : m ∈ (p.flow direction seed n).moves) : p.Owns m.target := by
  have hmethod := hp.method_of_flow hm
  cases direction with
  | forward =>
    have htarget := (Flow.Forward.accesses_of_mem_moves hm).1
    refine ⟨hp.mem_statements_of_mem_successors htarget, ?_⟩
    rw [hmethod]
    rcases Vocabulary.var_of_mem_forward hm with heq | hmem
    · rw [heq]
      exact hn.2
    · exact method_of_mem_locals hp howned hn.1 hmem
  | backward =>
    have hstmt := hp.mem_statements_of_mem_predecessors (Flow.Backward.accesses_of_mem_moves hm).1
    refine ⟨hstmt, ?_⟩
    simp only [Program.flow, Flow.Backward.flow] at hm
    split at hm
    · cases hm
    · obtain ⟨s, hs, hm⟩ := mem_flatMap.1 hm
      rw [(Flow.Backward.accesses_of_mem_movesOver hm).1] at hstmt hmethod ⊢
      rcases Vocabulary.var_of_mem_movesOver hm with heq | hmem
      · rw [heq, hn.2, hmethod]
      · exact method_of_mem_locals hp howned hstmt hmem

/-- Where an edge is followed from a call site of the program, a move is to a local of the method it
    leads to. It makes a frame of the callee if it leads there, and stays with the call site
    otherwise. -/
theorem framed_of_follows {scope : Scope} {x : Crossing} {e : CallEdge}
    (hsite : e.site ∈ p.statements) {m : Move} (h : Crossing.Follows p scope e direction x m) :
    p.Owns m.target ∧
      ((∃ n, m = .push n (.call e.site) ∧ n.stmt.method = e.callee ∧ (∃ site, x = .into site) ∧
        p.IsFrame e.callee direction (frameOf n)) ∨
      ∃ n, m = .pop n (.call e.site) ∧ n.stmt.method = e.site.method) := by
  cases h with
  | @enter site start callee _ v hcallee _ _ hstart hv =>
    have hmethod := hp.method_of_mem_body hcallee (Array.mem_of_getElem? hstart)
    have hn : p.Owns ⟨start, v⟩ := by
      refine ⟨Program.mem_statements_of_start? hcallee hstart, ?_⟩
      rw [hmethod, ← Program.name_of_method? hcallee]
      exact howned callee (Program.mem_methods_of_method? hcallee) v (mem_append_left _ hv)
    exact ⟨hn, .inl ⟨_, rfl, hmethod, ⟨site, rfl⟩, .entry hn hmethod hcallee hstart hv⟩⟩
  | @enterResult site exit _ v hcallee _ hexit haction =>
    obtain ⟨hplaces, hmethod⟩ := hp.places_of_mem_exits hcallee hexit
    have hn : p.Owns ⟨exit, v⟩ := owns_of_mem_locals hp howned hplaces.mem_statements
      (by simp [Statement.locals, haction])
    exact ⟨hn, .inl ⟨_, rfl, hmethod, ⟨site, rfl⟩, .exit hn hmethod haction⟩⟩
  | @leave _ _ _ _ _ _ hstmt hv =>
    have hmethod := hp.method_of_mem_successors hstmt
    refine ⟨⟨hp.mem_statements_of_mem_successors hstmt, ?_⟩, .inr ⟨_, rfl, hmethod⟩⟩
    exact (method_of_mem_locals hp howned hsite hv).trans hmethod.symm
  | leaveStart _ _ hv =>
    exact ⟨owns_of_mem_locals hp howned hsite hv, .inr ⟨_, rfl, rfl⟩⟩

end Moves

section Changes

variable {K : Message → Prop}

theorem allows_framing_move {m : Move} (htarget : p.Owns m.target)
    (hrule : (m.callRule n : CallRule ω).FramedAt p w N q (.outBy (.single n.var) n.stmt)) :
    ∀ x ∈ m.changes n, (Bound.framing p w N q K : Bound ω).Allows x := by
  refine Move.forall_changes hrule ?_
  rcases m with _ | ⟨_, _ | _⟩ | ⟨_, _ | _⟩ <;> exact htarget

/-- A move over a statement may be followed. -/
theorem allows_framing_step {m : Move} {field? : Option Field} (haccesses : m.Accesses field?)
    (htarget : p.Owns m.target) (hmethod : m.target.stmt.method = n.stmt.method) :
    ∀ x ∈ m.changes n, (Bound.framing p w N q K : Bound ω).Allows x := by
  refine allows_framing_move htarget ?_
  have htopic : (Topic.outBy (.single n.var) n.stmt).At m.target.stmt.method :=
    ⟨_, _, rfl, hmethod.symm⟩
  rcases m with _ | ⟨_, _ | _⟩ | ⟨_, _ | _⟩
  · exact ⟨htarget, htopic⟩
  · exact haccesses.elim
  · exact ⟨htarget, htopic⟩
  · exact haccesses.elim
  · exact ⟨htarget, htopic⟩

variable (hp : p.IsLaidOut)
include hp

theorem allows_framing_edge (howned : p.LocalsOwned) (hc : c.program = p) {x : Crossing}
    (hx : x.FramedAt p n) {e : CallEdge} (he : e ∈ x.edges w.graph)
    (hsite : e.site ∈ p.statements) :
    ∀ y ∈ x.changes c q.direction n e, (Bound.framing p w N q K : Bound ω).Allows y := by
  intro y hy
  obtain ⟨m, hm, hmade⟩ := mem_flatMap.1 hy
  rw [hc] at hm
  obtain ⟨htarget, ⟨target, rfl, hcallee, ⟨site, rfl⟩, hframe⟩ | ⟨target, rfl, hcaller⟩⟩ :=
    framed_of_follows hp howned hsite (Crossing.follows_of_mem hm)
  · obtain ⟨callee, hmem, rfl⟩ := mem_map.1 he
    obtain ⟨hcall, hmethod⟩ := hx
    refine allows_framing_move htarget ⟨htarget, ?_, hcall, ?_, _, _, rfl, hmethod.symm⟩ y hmade
    · rw [hcallee]
      exact hframe
    · rw [hcallee]
      exact hmem
  · exact allows_framing_move htarget ⟨htarget, hcaller.symm⟩ y hmade

theorem allows_framing_callRequest {bottom : State} {r : CallRequest}
    (hr : r.FramedAt p w N q topic) (htopic : topic ∈ t.topics) (ht : t.FramedAt p w N q) :
    ∀ x ∈ r.changes p bottom t, (Bound.framing p w N q (fun _ => True) : Bound ω).Allows x := by
  intro x hx
  cases CallRequest.yields_of_mem hx with
  | search | sites | deeper => exact hr
  | @returnAlias _ _ _ _ _ _ _ hlast hlabel =>
    refine ⟨hr, _, _, rfl, ?_⟩
    rw [landing, hlast, getD_some, hp.method_of_mem_successors hlabel]
  | storeContext =>
    obtain ⟨hasked, hvalue, hat⟩ := hr
    exact ⟨⟨hasked, hvalue, ht.context htopic hat⟩, trivial⟩
  | copied =>
    -- The transition leads out of a frame, so it is not one of a local.
    obtain ⟨hasked, m, e, rfl, hframe⟩ := hr
    have hsource : t.source = e := by
      simpa [Transition.topics, eq_comm] using htopic
    rcases ht.source with ⟨v, hv, -⟩ | hleaves
    · exact absurd (hsource.symm.trans hv) (hframe.ne_single v)
    · exact ⟨⟨hasked, hleaves, ht.target⟩, trivial⟩

theorem allows_framing_callRule [Weight ω] (hc : c.program = p) {rule : CallRule ω}
    (hrule : rule.FramedAt p w N q topic) (htopic : topic ∈ t.topics) (ht : t.FramedAt p w N q)
    (v : ω) :
    ∀ x ∈ rule.changes c (.bottom q.node) t v,
      (Bound.framing p w N q (fun _ => True) : Bound ω).Allows x := by
  intro x hx
  cases CallRule.yields_of_mem hx with
  | reach => trivial
  | step | popMatch => exact framedAt_callAt hrule.1 (ht.context htopic hrule.2)
  | enter =>
    obtain ⟨hn, hframe, -⟩ := hrule
    exact framedAt_callAt hn (.inr (.own hframe))
  | frame =>
    obtain ⟨hn, hframe, hsite, hedge, hat⟩ := hrule
    exact ⟨.inr ⟨_, .own hframe, hsite, hedge⟩, ht.context htopic hat⟩
  | leave _ _ _ hbottom => exact framedAt_callAt hrule.1 (.inl hbottom)
  | pop => exact ⟨hrule.1, _, _, rfl, hrule.2⟩
  | unwound _ _ hend =>
    obtain ⟨hn, state, label, rfl, hlanding⟩ := hrule
    refine framedAt_callAt hn ?_
    -- Either all frames were left, or there are no more to be left.
    rcases hend with rfl | hbottom
    · exact ht.context htopic ⟨_, _, rfl, hlanding⟩
    · exact .inl hbottom
  | unwind =>
    obtain ⟨hn, state, label, rfl, hlanding⟩ := hrule
    rw [landing, List.getLast?_cons, getD_some] at hlanding
    exact ⟨hn, _, _, rfl, hlanding⟩
  | request =>
    simp only [CallRule.changes, hc] at hx
    exact allows_framing_callRequest hp hrule htopic ht x hx

theorem allows_framing_fieldRule (howned : p.LocalsOwned) {rule : FieldRule}
    {topic : Topic State Field} (hrule : rule.FramedAt p N q topic) {t : FieldTransition}
    (htopic : topic ∈ t.topics) (ht : ∀ n, t.source = .located n → p.Owns n) :
    ∀ x ∈ rule.changes t, (Bound.framing p w N q (fun _ => True) : Bound ω).Allows x := by
  have hfield : ∀ {n : Node} (l : Field) (state : State), p.Owns n →
      (Bound.framing p w N q (fun _ => True) : Bound ω).field (fieldAt n l state) := by
    intro n l state hn n' hsource
    cases hsource
    exact hn
  intro x hx
  cases FieldRule.yields_of_mem hx with
  | reach => trivial
  | step | push | popMatch => exact hfield _ _ hrule
  | below => rintro _ ⟨⟩
  | pop => exact hrule
  | request h =>
    cases h with
    | allocation => exact ⟨hrule, trivial⟩
    | aliasAt _ _ _ _ hsource hstmt =>
      exact ⟨⟨hrule, ht _ hsource, congrArg Statement.method hstmt.symm⟩, trivial⟩
    | @returnAlias _ _ _ _ n hsource =>
      obtain ⟨hstore, n', l, rfl, hlanding⟩ := hrule
      have hsame : n' = n ∧ l = t.label := by
        simpa [Transition.topics, hsource] using htopic
      exact ⟨⟨hstore, ht _ hsource, hsame.1 ▸ hlanding⟩, trivial⟩
    | storeFound _ _ _ hsource haction =>
      have hn := ht _ hsource
      refine ⟨⟨hrule, hn, owns_of_mem_locals hp howned hn.1 ?_⟩, trivial⟩
      simp [Statement.locals, haction]

end Changes

/-- What a solver does is allowed, as far as the run has come. -/
theorem Bound.closed_framing [Weight ω] (hp : p.IsLaidOut) (howned : p.LocalsOwned)
    (hc : c.program = p) (hg : ∀ {x : Crossing} {e}, e ∈ x.edges w.graph → p.HasEdge e)
    {s : Solver ω} (hdirection : s.direction = q.direction) (hseed : s.seed = q.node) :
    (framing p w N q fun _ => True).Closed c w.graph s where
  callRules hrule htopic ht v := by
    rw [bottom, hseed]
    exact allows_framing_callRule hp hc hrule htopic ht v
  fieldRules hrule htopic ht := allows_framing_fieldRule hp howned hrule htopic ht
  nodes {n _ _ _} hcall _ _ := by
    have hn := owns_of_framedAt hcall
    refine Solver.forall_nodeChanges (fun m hm => ?_) (fun hforward haction => ?_) fun hback _ => ?_
    · rw [hc] at hm
      obtain ⟨field?, haccesses⟩ : ∃ field?, m.Accesses field? := by
        cases hd : s.direction with
        | forward =>
          rw [hd] at hm
          exact ⟨_, (Flow.Forward.accesses_of_mem_moves hm).2⟩
        | backward =>
          rw [hd] at hm
          exact ⟨_, (Flow.Backward.accesses_of_mem_moves hm).2⟩
      exact allows_framing_step haccesses (owns_of_flow hp howned hn hm) (hp.method_of_flow hm)
    · refine ⟨⟨hn, owns_of_mem_locals hp howned hn.1 ?_⟩, trivial⟩
      simp [Statement.locals, haction]
    · exact ⟨hdirection.symm.trans hback, hn⟩
  crossings {n _ _ _} hcall _ _ x hx := by
    have hn := owns_of_framedAt hcall
    rw [Solver.flowAt_eq, hc] at hx
    rcases mem_append.1 hx with hx | hx
    · obtain ⟨site, hsite, rfl⟩ := mem_map.1 hx
      obtain ⟨hiscall, rfl | hmem⟩ := Program.isCall_of_mem_callSites hsite
      · exact ⟨⟨hn.1, hiscall⟩, rfl⟩
      · exact ⟨⟨hp.mem_statements_of_mem_predecessors hmem, hiscall⟩,
          hp.method_of_mem_predecessors hmem⟩
    · obtain ⟨m, -, rfl⟩ := mem_map.1 hx
      trivial
  edges hwatcher he y hy := by
    rw [hdirection] at hy
    exact allows_framing_edge hp howned hc hwatcher he (hg he).1 y hy
  wanted {x n} hwatcher := by
    cases x with
    | into => exact ⟨hwatcher.1.1, trivial⟩
    | outOf => exact ⟨trivial, trivial⟩
  unreachable _ _ _ _ := ⟨trivial, trivial⟩

end DemandAlias
