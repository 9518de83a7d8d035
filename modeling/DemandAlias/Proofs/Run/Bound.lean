import DemandAlias.Proofs.Run.Convergence

/-!
# Bounds of a run

What a run may ever have: a *bound* of a run says which queries may be raised, what the
solver of each of them may have, and which edges, allocations and subscribers there may
be. Solvers speak of each other by their numbers, so what a solver may have depends on
which query each number stands for (`Naming`), and only grows with that.

A bound is closed if what is allowed to a solver only leads to what is (`Bound.Closed`),
and if passing on a message that is allowed only brings about what is
(`RunBound.Passes`). A run within a closed bound stays within it, whichever of its
solvers serves whichever of its queues (`Within.serveSolver`, `Within.refreshSolver`).
-/

namespace DemandAlias

/-! ### Naming solvers -/

/-- Which solver answers which query. -/
abbrev Naming := SolverId → Query → Prop

/-- The solvers named by `N` are named the same by `N'`. -/
def Naming.Le (N N' : Naming) : Prop := ∀ ⦃id q⦄, N id q → N' id q

theorem Query.ext {q q' : Query} (hnode : q.node = q'.node)
    (hdirection : q.direction = q'.direction) : q = q' := by
  cases q with
  | forward q =>
    cases q' with
    | forward =>
      obtain ⟨n, hn⟩ := q
      cases hnode
      rfl
    | backward => cases hdirection
  | backward q =>
    cases q' with
    | forward => cases hdirection
    | backward =>
      obtain ⟨n⟩ := q
      cases hnode
      rfl

/-- The solver with this number answers the query. -/
def Run.Names {ω : Type} (r : Run ω) : Naming := fun id q => r.ids[q]? = some id

/-- A solver answers one query. -/
theorem Run.Core.names_inj {ω : Type} [Weight ω] [DecidableEq ω] {c : Setting ω}
    {waiting : SolverId → Message → Prop} {r : Run ω} (h : r.Core c waiting) {id : SolverId}
    {q q' : Query} (hq : r.Names id q) (hq' : r.Names id q') : q = q' := by
  obtain ⟨s, hs, hseed, hdirection⟩ := h.ids hq
  obtain ⟨hseed', hdirection'⟩ := (h.ids hq').of_solver? hs
  exact Query.ext (hseed.symm.trans hseed') (hdirection.symm.trans hdirection')

/-! ### Bounds -/

/-- All that is allowed by the one bound is allowed by the other. -/
structure Bound.Le {ω : Type} (b b' : Bound ω) : Prop where
  call : ∀ {t}, b.call t → b'.call t
  field : ∀ {t}, b.field t → b'.field t
  callRule : ∀ {topic rule}, b.callRule topic rule → b'.callRule topic rule
  fieldRule : ∀ {topic rule}, b.fieldRule topic rule → b'.fieldRule topic rule
  message : ∀ {m}, b.message m → b'.message m
  watcher : ∀ {x n}, b.watcher x n → b'.watcher x n

theorem Bound.Le.allows {ω : Type} {b b' : Bound ω} (h : b.Le b') {x : Change ω} (hx : b.Allows x) :
    b'.Allows x := by
  cases x with
  | call => exact h.call hx
  | field => exact h.field hx
  | callRule => exact h.callRule hx
  | fieldRule => exact h.fieldRule hx
  | reachByCalls n | reachByFields n => trivial
  | message => exact h.message hx
  | callRequest => exact h.callRule hx
  | fieldRequest => exact h.fieldRule hx
  | unwind => exact h.callRule hx

theorem Solver.Within.mono {ω : Type} {b b' : Bound ω} {s : Solver ω} (h : s.Within b)
    (hle : b.Le b') : s.Within b' where
  call ht := hle.call (h.call ht)
  field ht := hle.field (h.field ht)
  callRule hk := hle.callRule (h.callRule hk)
  fieldRule hk := hle.fieldRule (h.fieldRule hk)
  message hm := hle.message (h.message hm)
  watcher hn := hle.watcher (h.watcher hn)

/-- What a run may have. -/
structure RunBound (ω : Type) where
  /-- The call graph it begins with. -/
  graph : CallGraph
  query : Query → Prop
  /-- What the solver of a query may have. -/
  solver : Naming → Query → Bound ω
  edge : Crossing → CallEdge → Prop
  /-- What the solver of a query may find. -/
  allocation : Query → ForwardQuery → Prop
  /-- What may be done with what the solver of a query finds. -/
  subscriber : Naming → Query → Subscriber → Prop

/-- The state for which the solver of `q'` has the state `state` of the solver of `q`. -/
def Query.copyOf (sender : SolverId) (q q' : Query) (state : State) : State :=
  if state = .bottom q.node then .bottom q'.node else .generated state (.imported sender)

namespace RunBound

variable {ω : Type}

/-- There is an edge from the call site to the method, or there may be. -/
def Links (b : RunBound ω) (site : Statement) (m : MethodName) : Prop :=
  m ∈ b.graph.callees site ∨ b.edge (.into site) ⟨site, m⟩ ∧ b.edge (.outOf m) ⟨site, m⟩

/-- The callees of the call site may be looked for. -/
def Resolves (b : RunBound ω) (p : Program) (N : Naming) (site : Statement) : Prop :=
  match site.call? with
  | some ⟨.static m, _⟩ => p.defines m = true → b.Links site m
  | some ⟨.virtual receiver name, _⟩ =>
    b.query (.backward ⟨⟨site, receiver⟩⟩) ∧
      b.subscriber N (.backward ⟨⟨site, receiver⟩⟩) (.resolve site name)
  | none => True

/-- Callees may be looked for anywhere if it is not restricted what is asked and found. -/
theorem resolves_of_free {b : RunBound ω} {N : Naming} (hquery : ∀ q, b.query q)
    (hedge : ∀ x e, b.edge x e) (hsubscriber : ∀ q site name, b.subscriber N q (.resolve site name))
    (p : Program) (site : Statement) : b.Resolves p N site := by
  unfold Resolves
  split
  · exact fun _ => .inr ⟨hedge .., hedge ..⟩
  · exact ⟨hquery _, hsubscriber ..⟩
  · trivial

/-- What a solver does that is listened to on behalf of a store. -/
def watchChanges (requester : SolverId) (store : Node) (base : Local) (field : Field) :
    List (Change ω) :=
  [.fieldRule .all (.request (.aliasesAt requester store base field)),
    .callRequest (.single base) (.outBy (.single base) store.stmt)
      (.callerFrames requester store field [])]

theorem forall_watchChanges {P : Change ω → Prop} {requester : SolverId} {store : Node}
    {base : Local} {field : Field}
    (hfields : P (.fieldRule .all (.request (.aliasesAt requester store base field))))
    (hcalls : P (.callRequest (.single base) (.outBy (.single base) store.stmt)
      (.callerFrames requester store field []))) :
    ∀ x ∈ watchChanges requester store base field, P x :=
  forall_mem_cons.2 ⟨hfields, forall_mem_singleton.2 hcalls⟩

/-- A subscriber may be told of an allocation. -/
def Notifies (b : RunBound ω) (p : Program) (N : Naming) (q : ForwardQuery) : Subscriber → Prop
  | .resolve site name =>
    ∀ m, (q.className?.bind fun c => p.dispatch c name) = some m → b.Links site m
  | .fieldWrite requester store base field =>
    b.query (.forward q) ∧ ∀ x ∈ watchChanges requester store base field,
      (b.solver N (.forward q)).Allows x
  | .aliases => b.query (.forward q)

/-- The transitions out of a state may be copied, unless it is the bottom. -/
def Copies (b : RunBound ω) (N : Naming) (q : Query) (requester : SolverId) (state : State) :
    Prop :=
  state = .bottom q.node ∨ (b.solver N q).callRule (.out state) (.request (.copy requester))

/-- The message of the solver of `q` may be passed on. -/
def Passes (b : RunBound ω) (c : Setting ω) (N : Naming) (sender : SolverId) (q : Query) :
    Message → Prop
  | .wanted x =>
    c.options.onTheFly = true → ∀ site ∈ Run.sitesOf c.program x, b.Resolves c.program N site
  | .fieldWrite store base field =>
    b.query (.backward ⟨⟨store.stmt, base⟩⟩) ∧
      b.subscriber N (.backward ⟨⟨store.stmt, base⟩⟩) (.fieldWrite sender store base field)
  | .allocation node label continuation =>
    ∀ h : node.stmt.allocates node.var = true,
      (label = .epsilon → b.allocation q ⟨node, h⟩) ∧
      (label ≠ .epsilon → b.query (.forward ⟨node, h⟩) ∧
        (b.solver N (.forward ⟨node, h⟩)).fieldRule .all
          (.request (.storesOf sender label continuation)))
  | .aliasAt requester store field other frames =>
    ∀ q', N requester q' → ∀ x ∈ Run.aliasChanges c.program store field other frames,
      (b.solver N q').Allows x
  | .storeFound requester continuation store value =>
    (∀ q', N requester q' →
      (b.solver N q').fieldRule (.out continuation) (.popMatch ⟨store.stmt, value⟩)) ∧
    (b.solver N q).callRule (.outBy (.single store.var) store.stmt)
      (.request (.storeContext requester ⟨store.stmt, value⟩))
  | .storeContext requester value context =>
    b.Copies N q requester context ∧ ∀ q', N requester q' →
      (b.solver N q').call (callAt value (q.copyOf sender q' context))
  | .copied requester t =>
    b.Copies N q requester t.source ∧ b.Copies N q requester t.target ∧ ∀ q', N requester q' →
      (b.solver N q').call ⟨q.copyOf sender q' t.source, t.label, q.copyOf sender q' t.target⟩
  | .unreachable _ => True

/-- The numbers stand for queries that may be raised, each for one. -/
structure Admits (b : RunBound ω) (N : Naming) : Prop where
  inj : ∀ {id q q'}, N id q → N id q' → q = q'
  query : ∀ {id q}, N id q → b.query q

/-- Passing on what is allowed only leads to what is allowed. -/
structure Passing [Weight ω] (b : RunBound ω) (c : Setting ω) : Prop where
  solver_mono : ∀ {N N' : Naming}, N.Le N' → ∀ q, (b.solver N q).Le (b.solver N' q)
  subscriber_mono : ∀ {N N' : Naming}, N.Le N' → ∀ {q k}, b.subscriber N q k → b.subscriber N' q k
  start : ∀ {N q}, b.query q → (b.solver N q).call (callAt q.node (.bottom q.node)) ∧
    (b.solver N q).field (fieldAt q.node .epsilon (.bottom q.node)) ∧
    (b.solver N q).callRule .all .reach ∧ (b.solver N q).fieldRule .all .reach
  message : ∀ {N sender q m size}, b.Admits N → N sender q → (b.solver N q).message m →
    m.Legit size → b.Passes c N sender q m
  notice : ∀ {N q k a size}, b.Admits N → b.query q → b.subscriber N q k → k.Legit size →
    b.allocation q a → b.Notifies c.program N a k

/-- What is allowed only leads to what is allowed, whatever the call graph. -/
structure Closed [Weight ω] (b : RunBound ω) (c : Setting ω) : Prop extends Passing b c where
  closed : ∀ {N q}, b.Admits N → b.query q → ∀ {g : CallGraph} {s : Solver ω},
    (∀ {x e}, e ∈ x.edges g → b.edge x e) → s.direction = q.direction → s.seed = q.node →
    (b.solver N q).Closed c g s

section Mono

variable [Weight ω] {b : RunBound ω} {c : Setting ω}

variable (hb : b.Passing c) {N N' : Naming} (hN : N.Le N')
include hb hN

theorem Notifies.mono {p : Program} {a : ForwardQuery} {k : Subscriber} (h : b.Notifies p N a k) :
    b.Notifies p N' a k := by
  cases k with
  | resolve => exact h
  | fieldWrite =>
    exact h.imp_right fun hallowed x hx => (hb.solver_mono hN (.forward a)).allows (hallowed x hx)
  | aliases => exact h

theorem Resolves.mono {p : Program} {site : Statement} (h : b.Resolves p N site) :
    b.Resolves p N' site := by
  unfold Resolves at h ⊢
  generalize site.call? = call at h ⊢
  rcases call with _ | ⟨m | ⟨receiver, name⟩, args⟩
  · trivial
  · exact h
  · exact h.imp_right (hb.subscriber_mono hN)

theorem Copies.mono {q : Query} {requester : SolverId} {state : State}
    (h : b.Copies N q requester state) : b.Copies N' q requester state :=
  h.imp_right (hb.solver_mono hN q).callRule

end Mono

/-- All that is allowed by the one bound is allowed by the other. -/
structure Le (b b' : RunBound ω) : Prop where
  graph : b.graph = b'.graph
  query : ∀ {q}, b.query q → b'.query q
  solver : ∀ N q, (b.solver N q).Le (b'.solver N q)
  edge : ∀ {x e}, b.edge x e → b'.edge x e
  allocation : ∀ {q a}, b.allocation q a → b'.allocation q a
  subscriber : ∀ {N q k}, b.subscriber N q k → b'.subscriber N q k

end RunBound

/-- The run for a query of either direction, before its first step. -/
def Session.begin {ω : Type} [Weight ω] [DecidableEq ω] (session : Session ω) : Query → Run ω
  | .forward q => session.beginForward q
  | .backward q => session.beginBackward q

namespace Run

variable {ω : Type}
variable {q : Query} {id sender requester : SolverId} {site : Statement}
variable {k : Subscriber} {a : ForwardQuery} {q' : Query}

theorem reachable_begin [Weight ω] [DecidableEq ω] (session : Session ω) :
    ∀ q, Reachable session.setting (session.begin q)
  | .forward q => .forward session.graph q
  | .backward q => .backward session.graph q

/-- What is maintained and holds when runs begin holds of all that come up. -/
theorem Reachable.maintains [Weight ω] [DecidableEq ω] [ZeroFree ω] {c : Setting ω} {r : Run ω}
    {P : CallGraph → Run ω → Prop} (h : Reachable c r) (hc : c.weighing.ZeroFree)
    (hP : ∀ graph, Maintained c (P graph)) (hbegin : ∀ graph q, P graph (Session.begin ⟨c, graph⟩ q)) :
    ∃ graph, P graph r := by
  induction h with
  | backward graph q => exact ⟨graph, hbegin graph (.backward q)⟩
  | forward graph q => exact ⟨graph, hbegin graph (.forward q)⟩
  | tick elapsed h ih => exact ih.imp fun graph hr => (hP graph).tick (h.orderly hc) hr elapsed

/-- All that the run has is allowed. -/
structure Within (b : RunBound ω) (r : Run ω) : Prop where
  graph : b.graph.Grows r.graph
  named : ∀ {id s}, r.solver? id = some s → ∃ q, r.Names id q
  query : ∀ {id q}, r.Names id q → b.query q
  solver : ∀ {id q s}, r.Names id q → r.solver? id = some s → s.Within (b.solver r.Names q)
  edge : ∀ {x e}, e ∈ x.edges r.graph → b.edge x e
  allocation : ∀ {id a}, a ∈ r.allocations.get id → ∃ q, r.Names id q ∧ b.allocation q a
  subscriber : ∀ {id k}, k ∈ r.subscribers.get id → ∃ q, r.Names id q ∧ b.subscriber r.Names q k

variable {b : RunBound ω} {r : Run ω}

theorem Within.mono {b' : RunBound ω} (hw : r.Within b) (hle : b.Le b') : r.Within b' where
  graph := hle.graph.symm ▸ hw.graph
  named := hw.named
  query hq := hle.query (hw.query hq)
  solver hq hs := (hw.solver hq hs).mono (hle.solver _ _)
  edge he := hle.edge (hw.edge he)
  allocation ha := (hw.allocation ha).imp fun _ => .imp_right hle.allocation
  subscriber hk := (hw.subscriber hk).imp fun _ => .imp_right hle.subscriber

/-! ### Noting things -/

/-- Noting something stays within a bound, if what is new is allowed. -/
theorem Within.note {r' : Run ω} (hw : r.Within b) (hgraph : r.graph.Grows r'.graph)
    (hsolvers : r'.solvers = r.solvers) (hids : r'.ids = r.ids)
    (hedge : ∀ {x e}, e ∈ x.edges r'.graph → e ∈ x.edges r.graph ∨ b.edge x e)
    (hallocation : ∀ {id a}, a ∈ r'.allocations.get id → a ∈ r.allocations.get id ∨
      ∃ q, r.Names id q ∧ b.allocation q a)
    (hsubscriber : ∀ {id k}, k ∈ r'.subscribers.get id → k ∈ r.subscribers.get id ∨
      ∃ q, r.Names id q ∧ b.subscriber r.Names q k) : r'.Within b := by
  have hnames : r'.Names = r.Names := by
    funext id q
    rw [Names, Names, hids]
  have hsolver : ∀ id, r'.solver? id = r.solver? id := fun id => by rw [solver?, solver?, hsolvers]
  refine ⟨hw.graph.trans hgraph, ?_, ?_, ?_, fun he => ?_, ?_, ?_⟩
  · simp only [hsolver, hnames]
    exact hw.named
  · simp only [hnames]
    exact hw.query
  · simp only [hsolver, hnames]
    exact hw.solver
  · exact (hedge he).elim hw.edge fun he => he
  · simp only [hnames]
    exact fun ha => (hallocation ha).elim hw.allocation fun ha => ha
  · simp only [hnames]
    exact fun hk => (hsubscriber hk).elim hw.subscriber fun hk => hk

/-- What is only noted for the schedule does not matter. -/
theorem Within.clock (hw : r.Within b) {resolvedSites resolvedMethods registered steps turn phase} :
    Within b { r with resolvedSites, resolvedMethods, registered, steps, turn, phase } := by
  have hgraph : r.graph.Grows r.graph := .refl r.graph
  exact hw.note hgraph rfl rfl .inl .inl .inl

theorem mem_edges_addEdge {g : CallGraph} {m : MethodName} {x : Crossing} {e : CallEdge}
    (he : e ∈ x.edges (g.addEdge site m)) :
    e ∈ x.edges g ∨ m ∉ g.callees site ∧ e = ⟨site, m⟩ ∧ (x = .into site ∨ x = .outOf m) := by
  unfold CallGraph.addEdge at he
  split at he
  · exact .inl he
  · next hedge =>
    have hnew : m ∉ g.callees site := fun hm => hedge (List.contains_iff_mem.2 hm)
    cases x with
    | into =>
      obtain ⟨m', hm', rfl⟩ := mem_map.1 he
      rcases (mem_get_file ..).1 hm' with hm' | ⟨rfl, rfl⟩
      · exact .inl (mem_map.2 ⟨m', hm', rfl⟩)
      · exact .inr ⟨hnew, rfl, .inl rfl⟩
    | outOf =>
      obtain ⟨site', hsite', rfl⟩ := mem_map.1 he
      rcases (mem_get_file ..).1 hsite' with hsite' | ⟨rfl, rfl⟩
      · exact .inl (mem_map.2 ⟨site', hsite', rfl⟩)
      · exact .inr ⟨hnew, rfl, .inr rfl⟩

theorem Within.addEdge (hw : r.Within b) {m : MethodName} (hlinks : b.Links site m) :
    (r.addEdge site m).Within b := by
  refine hw.note (.addEdge r.graph site m) rfl rfl (fun {x e} he => ?_) .inl .inl
  rcases mem_edges_addEdge he with he | ⟨hnew, rfl, hx⟩
  · exact .inl he
  · rcases hlinks with hm | ⟨hinto, houtOf⟩
    · -- An edge of the first graph is there already.
      exact absurd (CallGraph.Grows.mem_edges_into.1
        ((hw.graph.edges (.into site)).subset (CallGraph.Grows.mem_edges_into.2 hm))) hnew
    · rcases hx with rfl | rfl
      · exact .inr hinto
      · exact .inr houtOf

/-! ### Changing and creating solvers -/

theorem Within.modifySolver (hw : r.Within b) {f : Solver ω → Solver ω}
    (hf : ∀ {q s}, r.Names id q → r.solver? id = some s → (f s).Within (b.solver r.Names q)) :
    (r.modifySolver id f).Within b := by
  refine ⟨hw.graph, fun {id' s'} hs' => ?_, hw.query, fun {id' q s'} hq hs' => ?_, hw.edge,
    hw.allocation, hw.subscriber⟩
  · rcases solver?_modifySolver_cases hs' with ⟨s, rfl, hs, -⟩ | ⟨-, hs'⟩
    · exact hw.named hs
    · exact hw.named hs'
  · rcases solver?_modifySolver_cases hs' with ⟨s, rfl, hs, rfl⟩ | ⟨-, hs'⟩
    · exact hf hq hs
    · exact hw.solver hq hs'

theorem Grows.names {r' : Run ω} (hr : Grows r r') : r.Names.Le r'.Names := fun _ _ => hr.ids

theorem var?_copyOf (sender : SolverId) (q q' : Query) (state : State) :
    (q.copyOf sender q' state).var? = none := by
  unfold Query.copyOf
  split <;> rfl

variable [Weight ω] [DecidableEq ω] {c : Setting ω} {waiting : SolverId → Message → Prop}

theorem Within.admits (h : r.Core c waiting) (hw : r.Within b) : b.Admits r.Names :=
  ⟨h.names_inj, hw.query⟩

theorem Within.create (hb : b.Passing c) (h : r.Core c waiting) (hw : r.Within b) (hq : b.query q)
    (hnone : r.ids[q]? = none) : (r.create q).Within b := by
  have hnames : r.Names.Le (r.create q).Names := fun id q' hq' => by
    have hne : q ≠ q' := fun heq => by
      rw [Names, ← heq, hnone] at hq'
      cases hq'
    rw [Names, ids_create, if_neg hne]
    exact hq'
  have hnew : (r.create q).Names ⟨r.solvers.size⟩ q := by rw [Names, ids_create, if_pos rfl]
  have hold : ∀ {id q'}, (r.create q).Names id q' →
      id = ⟨r.solvers.size⟩ ∧ q' = q ∨ r.Names id q' := fun {id q'} hq' => by
    rw [Names, ids_create] at hq'
    split at hq'
    · next heq => exact .inl ⟨(some.inj hq').symm, heq.symm⟩
    · exact .inr hq'
  refine ⟨hw.graph, fun {id s} hs => ?_, fun {id q'} hq' => ?_, fun {id q' s} hq' hs => ?_, hw.edge,
    fun ha => (hw.allocation ha).imp fun _ => .imp_left (hnames ·),
    fun hk => (hw.subscriber hk).imp fun _ => .imp (hnames ·) (hb.subscriber_mono hnames)⟩
  · rw [solver?_create] at hs
    split at hs
    · next heq =>
      obtain ⟨i⟩ := id
      cases heq
      exact ⟨q, hnew⟩
    · exact (hw.named hs).imp fun _ hq => hnames hq
  · rcases hold hq' with ⟨-, rfl⟩ | hq'
    · exact hq
    · exact hw.query hq'
  · rw [solver?_create] at hs
    rcases hold hq' with ⟨rfl, rfl⟩ | hq'
    · rw [if_pos rfl] at hs
      cases hs
      obtain ⟨hcall, hfield, hcallRule, hfieldRule⟩ := hb.start (N := (r.create q').Names) hq
      exact Solver.within_start _ _ hcall hfield hcallRule hfieldRule
    · obtain ⟨s', hs', -⟩ := h.ids hq'
      rw [if_neg (Nat.ne_of_lt (index_lt hs'))] at hs
      exact (hw.solver hq' hs).mono (hb.solver_mono hnames q')

/-- The solver of a query that may be raised may be there. -/
theorem Within.withSolver (hb : b.Passing c) (h : r.Core c waiting) (hw : r.Within b)
    (hq : b.query q) : (r.withSolver q).1.Within b := by
  rcases withSolver_cases r q with ⟨id, -, heq⟩ | ⟨hnone, heq⟩
  · rw [heq]
    exact hw
  · rw [heq]
    exact hw.create hb h hq hnone

variable [ZeroFree ω]

/-- Changes that are allowed stay within a bound. -/
theorem Within.change (h : r.Core c waiting) (hw : r.Within b) (xs : List (Change ω))
    (hplain : ∀ x ∈ xs, Solver.Plain x)
    (hallowed : ∀ q, r.Names id q → ∀ x ∈ xs, (b.solver r.Names q).Allows x) :
    (r.modifySolver id fun s => s.makeAll xs).Within b :=
  hw.modifySolver fun {q s} hq hs => (hw.solver hq hs).makeAll (h.kept hs).sound
    (fun x hx => (hplain x hx).proper s) (hallowed q hq)

theorem Within.register (h : r.Core c waiting) (hw : r.Within b) (x : Registration)
    (xs : List (Change ω)) (hplain : ∀ x ∈ xs, Solver.Plain x)
    (hallowed : ∀ q, r.Names id q → ∀ x ∈ xs, (b.solver r.Names q).Allows x) :
    (r.register id x fun s => s.makeAll xs).Within b := by
  unfold Run.register
  split
  · exact hw
  · exact (hw.change h xs hplain hallowed).clock

/-! ### Allocations -/

section

variable (hb : b.Passing c) (h : r.Core c waiting) (hw : r.Within b)
include hb h hw

theorem Within.notify (hnotice : b.Notifies c.program r.Names a k) :
    (r.notify c.program k a).Within b := by
  cases k with
  | resolve =>
    simp only [Run.notify]
    split
    · next m hm => exact hw.addEdge (hnotice m hm)
    · exact hw
  | fieldWrite requester store base field =>
    obtain ⟨hquery, hallowed⟩ := RunBound.Notifies.mono hb
      (leads_withSolver h (.forward a)).1.grows.names hnotice
    have hw₁ := hw.withSolver hb h hquery
    obtain ⟨hl, -, hid⟩ := leads_withSolver h (.forward a)
    simp only [Run.notify]
    generalize r.withSolver (.forward a) = w at hw₁ hl hid hallowed ⊢
    obtain ⟨r₁, id⟩ := w
    refine hw₁.register hl.core (.aliasesAt id requester store)
      (RunBound.watchChanges requester store base field) ?_ fun q hq => ?_
    · simp [RunBound.watchChanges, Solver.Plain, CallRequest.topic, State.var?]
    rw [hl.core.names_inj hq hid]
    exact hallowed
  | aliases => exact hw.withSolver hb h hnotice

theorem Within.foldl_queries (hk : k.Legit r.solvers.size) {as : List ForwardQuery}
    (has : ∀ a ∈ as, b.Notifies c.program r.Names a k) :
    (as.foldl (fun r a => r.notify c.program k a) r).Within b := by
  induction as generalizing r with
  | nil => exact hw
  | cons a _ ih =>
    have hl := (leads_notify h hk c.program a).1
    exact ih hl.core (hw.notify hb h (has a mem_cons_self)) (hk.mono hl.grows.size_le)
      fun a' ha' => .mono hb hl.grows.names (has a' (mem_cons_of_mem _ ha'))

theorem Within.foldl_subscribers {ks : List Subscriber}
    (hlegit : ∀ k ∈ ks, k.Legit r.solvers.size) (hks : ∀ k ∈ ks, b.Notifies c.program r.Names a k) :
    (ks.foldl (fun r k => r.notify c.program k a) r).Within b := by
  induction ks generalizing r with
  | nil => exact hw
  | cons k _ ih =>
    have hl := (leads_notify h (hlegit k mem_cons_self) c.program a).1
    exact ih hl.core (hw.notify hb h (hks k mem_cons_self))
      (fun k' hk' => (hlegit k' (mem_cons_of_mem _ hk')).mono hl.grows.size_le)
      fun k' hk' => .mono hb hl.grows.names (hks k' (mem_cons_of_mem _ hk'))

/-- A subscriber that may be there may be told of what was found before. -/
theorem Within.subscribe (hq : r.Names id q) (hk : k.Legit r.solvers.size)
    (hallowed : b.subscriber r.Names q k) : (r.subscribe c.program id k).Within b := by
  have hgrows : Grows r { r with subscribers := r.subscribers.file id k } :=
    { Grows.refl r with subscribers := fun hk' => (mem_get_file ..).2 (.inl hk') }
  have hnote : Core c waiting { r with subscribers := r.subscribers.file id k } := by
    refine h.note hgrows rfl rfl (fun {id' k'} hk' => ?_) rfl
    rcases (mem_get_file ..).1 hk' with hk' | ⟨-, rfl⟩
    · exact .inl hk'
    · exact .inr hk
  have hadmits := hw.admits h
  have hw₁ : Within b { r with subscribers := r.subscribers.file id k } := by
    refine hw.note (.refl r.graph) rfl rfl .inl .inl fun {id' k'} hk' => ?_
    rcases (mem_get_file ..).1 hk' with hk' | ⟨rfl, rfl⟩
    · exact .inl hk'
    · exact .inr ⟨q, hq, hallowed⟩
  refine hw₁.foldl_queries hb hnote hk fun a ha => ?_
  obtain ⟨q', hq', ha⟩ := hw.allocation ha
  rw [h.names_inj hq' hq] at ha
  exact hb.notice hadmits (hw.query hq) hallowed hk ha

/-- An allocation that may be found may be told to those who subscribed before. -/
theorem Within.found (hq : r.Names id q) (ha : b.allocation q a) :
    (r.found c.program id a).Within b := by
  unfold Run.found
  split
  · exact hw
  · have hgrows : Grows r { r with allocations := r.allocations.file id a } :=
      { Grows.refl r with allocations := fun ha' => (mem_get_file ..).2 (.inl ha') }
    have hnote := h.note hgrows rfl rfl .inl rfl
    have hadmits := hw.admits h
    have hw₁ : Within b { r with allocations := r.allocations.file id a } := by
      refine hw.note (.refl r.graph) rfl rfl .inl (fun {id' a'} ha' => ?_) .inl
      rcases (mem_get_file ..).1 ha' with ha' | ⟨rfl, rfl⟩
      · exact .inl ha'
      · exact .inr ⟨q, hq, ha⟩
    refine hw₁.foldl_subscribers hb hnote (fun k hk => h.subscribed hk) fun k hk => ?_
    obtain ⟨q', hq', hk'⟩ := hw.subscriber hk
    rw [h.names_inj hq' hq] at hk'
    exact hb.notice hadmits (hw.query hq) hk' (h.subscribed hk) ha

/-! ### Edges -/

theorem Within.lookUp (hsite : b.Resolves c.program r.Names site) :
    (r.lookUp c.program site).Within b := by
  have hmono := fun q => RunBound.Resolves.mono hb (leads_withSolver h q).1.grows.names hsite
  unfold Run.lookUp
  unfold RunBound.Resolves at hsite hmono
  generalize site.call? = call at hsite hmono ⊢
  rcases call with _ | ⟨m | ⟨receiver, name⟩, args⟩
  · exact hw
  · dsimp only
    split
    · next hm => exact hw.addEdge (hsite hm)
    · exact hw
  · have hw₁ := hw.withSolver hb h hsite.1
    have hsubscriber := (hmono (.backward ⟨⟨site, receiver⟩⟩)).2
    obtain ⟨hl, -, hid⟩ := leads_withSolver h (.backward ⟨⟨site, receiver⟩⟩)
    dsimp only
    generalize r.withSolver (.backward ⟨⟨site, receiver⟩⟩) = w at hw₁ hl hid hsubscriber ⊢
    exact hw₁.subscribe hb hl.core hid trivial hsubscriber

theorem Within.resolve (hsite : b.Resolves c.program r.Names site) :
    (r.resolve c.program site).Within b := by
  rw [resolve_eq]
  split
  · exact hw
  · have hnote : Core c waiting { r with resolvedSites := r.resolvedSites.insert site } :=
      h.note { Grows.refl r with } rfl rfl .inl rfl
    exact Within.lookUp hb hnote hw.clock hsite

end

theorem Within.foldl_resolve (hb : b.Passing c) (h : r.Noted c waiting) (hw : r.Within b)
    {sites : List Statement} (hsites : ∀ site ∈ sites, b.Resolves c.program r.Names site) :
    (sites.foldl (fun r site => r.resolve c.program site) r).Within b := by
  induction sites generalizing r with
  | nil => exact hw
  | cons site _ ih =>
    obtain ⟨hn, hgrows, -⟩ := h.resolve site
    exact ih hn (hw.resolve hb h.toCore (hsites site mem_cons_self)) fun site' hsite' =>
      .mono hb hgrows.names (hsites site' (mem_cons_of_mem _ hsite'))

theorem Within.findEdges (hb : b.Passing c) (h : r.Kept c waiting) (hw : r.Within b) {x : Crossing}
    (hx : ∀ site ∈ sitesOf c.program x, b.Resolves c.program r.Names site) :
    (r.findEdges c.program x).Within b := by
  cases x with
  | into site => exact hw.resolve hb h.toCore (hx site mem_cons_self)
  | outOf method =>
    simp only [Run.findEdges]
    split
    · exact hw
    · have hgrows : Grows r { r with resolvedMethods := r.resolvedMethods.insert method } :=
        { Grows.refl r with }
      have hnoted : Noted c waiting { r with resolvedMethods := r.resolvedMethods.insert method } := {
        h.toCore.note hgrows rfl rfl .inl rfl with
        notified := fun _ _ _ hk hq => (h.notified hk hq).mono hgrows
        sites := fun hsite => (h.sites hsite).mono hgrows }
      exact Within.foldl_resolve hb hnoted hw.clock hx

/-! ### Messages -/

omit [ZeroFree ω] in
theorem copyOf_eq (h : r.Core c waiting) (hq : r.Names sender q) (hq' : r.Names requester q')
    (state : State) : r.copyOf sender requester state = q.copyOf sender q' state := by
  obtain ⟨s, hs, hseed, -⟩ := h.ids hq
  obtain ⟨s', hs', hseed', -⟩ := h.ids hq'
  simp only [Run.copyOf, bottom?, hs, hs', map_some, Option.some.injEq, getD_some,
    Query.copyOf, bottom, hseed, hseed', eq_comm (a := State.bottom q.node)]

theorem Within.copyOut (h : r.Core c waiting) (hw : r.Within b) (hq : r.Names sender q)
    {state : State} (hcopies : b.Copies r.Names q requester state) :
    (r.copyOut sender requester state).Within b := by
  unfold Run.copyOut
  split
  · exact hw
  · next hbottom =>
    refine hw.register h (.copy sender requester state)
      [.callRule (.out state) (.request (.copy requester))] (by simp [Solver.Plain]) ?_
    intro q₁ hq₁ x hx
    rw [mem_singleton.1 hx, h.names_inj hq₁ hq]
    refine hcopies.resolve_left fun hstate => hbottom ?_
    obtain ⟨s, hs, hseed, -⟩ := h.ids hq
    rw [bottom?, hs, map_some, bottom, hseed, hstate]

/-- Adding a transition that is allowed stays within a bound. -/
theorem Within.addCall (h : r.Core c waiting) (hw : r.Within b) {t : CallTransition}
    (htarget : t.target.var? = none) (ht : ∀ q, r.Names id q → (b.solver r.Names q).call t) :
    (r.modifySolver id fun s => s.addCall t one).Within b := by
  refine hw.change h [.call t one] ?_ ?_
  · exact fun x hx => mem_singleton.1 hx ▸ ⟨ZeroFree.one_ne_zero, htarget⟩
  · exact fun q hq x hx => mem_singleton.1 hx ▸ ht q hq

section

variable (hb : b.Passing c) (h : r.Kept c waiting) (hw : r.Within b) (hq : r.Names sender q)
  (hq' : r.Names requester q')
include hb h hw hq hq'

theorem Within.handleContext {n : Node} {context : State}
    (hpasses : b.Passes c r.Names sender q (.storeContext requester n context)) :
    (r.handleContext sender requester n context).Within b := by
  obtain ⟨hcopies, hcall⟩ := hpasses
  obtain ⟨s, hs, -⟩ := h.ids hq
  obtain ⟨s', hs', -⟩ := h.ids hq'
  have hw₁ := hw.copyOut h.toCore hq hcopies
  have hp := (h.copyOut (index_lt hs) (index_lt hs') context).1
  unfold Run.handleContext
  dsimp only
  generalize r.copyOut sender requester context = r₁ at hw₁ hp ⊢
  have hnames := hp.grows.names
  rw [copyOf_eq hp.kept.toCore (hnames hq) (hnames hq')]
  refine hw₁.addCall hp.kept.toCore (var?_copyOf ..) fun q₁ hq₁ => ?_
  rw [hp.kept.toCore.names_inj hq₁ (hnames hq')]
  exact (hb.solver_mono hnames q').call (hcall q' hq')

theorem Within.handleCopy {t : CallTransition}
    (hpasses : b.Passes c r.Names sender q (.copied requester t)) :
    (r.handleCopy sender requester t).Within b := by
  obtain ⟨hsource, htarget, hcall⟩ := hpasses
  obtain ⟨s, hs, -⟩ := h.ids hq
  obtain ⟨s', hs', -⟩ := h.ids hq'
  have hw₁ := hw.copyOut h.toCore hq hsource
  have hp := (h.copyOut (index_lt hs) (index_lt hs') t.source).1
  unfold Run.handleCopy
  dsimp only
  generalize r.copyOut sender requester t.source = r₁ at hw₁ hp ⊢
  have hsize := hp.grows.size_le
  have hnames := hp.grows.names
  have hw₂ := hw₁.copyOut hp.kept.toCore (hnames hq) (RunBound.Copies.mono hb hnames htarget)
  have hp₂ := hp.trans (hp.kept.copyOut (Nat.lt_of_lt_of_le (index_lt hs) hsize)
    (Nat.lt_of_lt_of_le (index_lt hs') hsize) t.target).1
  generalize r₁.copyOut sender requester t.target = r₂ at hw₂ hp₂ ⊢
  have hnames₂ := hp₂.grows.names
  rw [copyOf_eq hp₂.kept.toCore (hnames₂ hq) (hnames₂ hq'),
    copyOf_eq hp₂.kept.toCore (hnames₂ hq) (hnames₂ hq')]
  refine hw₂.addCall hp₂.kept.toCore (var?_copyOf ..) fun q₁ hq₁ => ?_
  rw [hp₂.kept.toCore.names_inj hq₁ (hnames₂ hq')]
  exact (hb.solver_mono hnames₂ q').call (hcall q' hq')

end

theorem Within.handleStore (h : r.Core c waiting) (hw : r.Within b) (hq : r.Names sender q)
    {continuation : State} {store : Node} {value : Local}
    (hpasses : b.Passes c r.Names sender q (.storeFound requester continuation store value)) :
    (r.handleStore sender requester continuation store value).Within b := by
  obtain ⟨hfield, hcall⟩ := hpasses
  have hplain : ∀ x ∈ [Change.fieldRule (.out continuation) (.popMatch ⟨store.stmt, value⟩)],
      Solver.Plain (x : Change ω) := by simp [Solver.Plain]
  have hl := leads_change h requester hplain (by simp [Bound.Allows, legit])
  have hw₁ := hw.change h _ hplain fun q' hq' x hx => mem_singleton.1 hx ▸ hfield q' hq'
  refine hw₁.register hl.core (.storeContext sender requester ⟨store.stmt, value⟩)
    [.callRule (.outBy (.single store.var) store.stmt)
      (.request (.storeContext requester ⟨store.stmt, value⟩))] (by simp [Solver.Plain]) ?_
  intro q₁ hq₁ x hx
  rw [mem_singleton.1 hx, h.names_inj hq₁ hq]
  exact hcall

theorem Within.handleAllocation (hb : b.Passing c) (h : r.Core c waiting) (hw : r.Within b)
    (hq : r.Names sender q) {node : Node} {label : Field} {continuation : State}
    (hpasses : b.Passes c r.Names sender q (.allocation node label continuation)) :
    (r.handleAllocation c.program sender node label continuation).Within b := by
  unfold Run.handleAllocation
  split
  · exact hw
  · next a hof =>
    obtain ⟨ha, rfl⟩ : ∃ ha, a = ⟨node, ha⟩ := by
      unfold ForwardQuery.of at hof
      split at hof
      · next ha => exact ⟨ha, (Except.ok.inj hof).symm⟩
      · cases hof
    split
    · next hlabel => exact hw.found hb h hq ((hpasses ha).1 hlabel)
    · next hlabel =>
      obtain ⟨hquery, hrule⟩ := (hpasses ha).2 hlabel
      have hw₁ := hw.withSolver hb h hquery
      obtain ⟨hl, -, hid⟩ := leads_withSolver h (.forward ⟨node, ha⟩)
      have hrule' := (hb.solver_mono hl.grows.names (.forward ⟨node, ha⟩)).fieldRule hrule
      dsimp only
      generalize r.withSolver (.forward ⟨node, ha⟩) = w at hw₁ hl hid hrule' ⊢
      obtain ⟨r₁, id⟩ := w
      refine hw₁.register hl.core (.storesOf id sender label continuation)
        [.fieldRule .all (.request (.storesOf sender label continuation))]
        (by simp [Solver.Plain]) ?_
      intro q₁ hq₁ x hx
      rw [mem_singleton.1 hx, hl.core.names_inj hq₁ hid]
      exact hrule'

/-- Passing on a message that is allowed stays within a bound. -/
theorem Within.handle (hb : b.Passing c) (h : r.Kept c waiting) (hw : r.Within b)
    (hq : r.Names sender q) {m : Message} (hm : (b.solver r.Names q).message m)
    (hlegit : m.Legit r.solvers.size) : (r.handle c sender m).Within b := by
  have hpasses := hb.message (hw.admits h.toCore) hq hm hlegit
  have hnamed : ∀ {id : SolverId}, id.index < r.solvers.size → ∃ q', r.Names id q' :=
    fun hid => hw.named (Array.getElem?_eq_getElem hid)
  cases m with
  | wanted =>
    simp only [Run.handle]
    split
    · next hfly => exact hw.findEdges hb h (hpasses hfly)
    · exact hw
  | fieldWrite store base =>
    obtain ⟨hquery, hsubscriber⟩ := hpasses
    have hw₁ := hw.withSolver hb h.toCore hquery
    obtain ⟨s, hs, -⟩ := h.ids hq
    obtain ⟨hl, -, hid⟩ := leads_withSolver h.toCore (.backward ⟨⟨store.stmt, base⟩⟩)
    have hsubscriber' := hb.subscriber_mono hl.grows.names hsubscriber
    simp only [Run.handle]
    generalize r.withSolver (.backward ⟨⟨store.stmt, base⟩⟩) = w at hw₁ hl hid hsubscriber' ⊢
    exact hw₁.subscribe hb hl.core hid
      ⟨Nat.lt_of_lt_of_le (index_lt hs) hl.grows.size_le, hlegit⟩ hsubscriber'
  | allocation => exact hw.handleAllocation hb h.toCore hq hpasses
  | aliasAt _ store field other frames =>
    simp only [Run.handle, handleAlias_eq]
    exact hw.change h.toCore _ (plain_aliasChanges c.program store field other frames) hpasses
  | storeFound =>
    exact hw.handleStore h.toCore hq hpasses
  | storeContext =>
    obtain ⟨q', hq'⟩ := hnamed hlegit
    exact hw.handleContext hb h hq hq' hpasses
  | copied =>
    obtain ⟨q', hq'⟩ := hnamed hlegit
    exact hw.handleCopy hb h hq hq' hpasses
  | unreachable => exact hw.clock

theorem Within.foldl_handle (hb : b.Passing c) {ms : List Message}
    (h : r.Kept c fun id' m => id' = id ∧ m ∈ ms) (hw : r.Within b) (hq : r.Names id q)
    (hms : ∀ m ∈ ms, (b.solver r.Names q).message m ∧ m.Legit r.solvers.size) :
    (ms.foldl (fun r m => r.handle c id m) r).Within b := by
  induction ms generalizing r with
  | nil => exact hw
  | cons m _ ih =>
    obtain ⟨s, hs, -⟩ := h.ids hq
    obtain ⟨hm, hlegit⟩ := hms m mem_cons_self
    have hp := h.handle_first (index_lt hs) hlegit
    refine ih hp.kept (hw.handle hb h hq hm hlegit) (hp.grows.names hq) fun m' hm' => ?_
    exact (hms m' (mem_cons_of_mem _ hm')).imp (hb.solver_mono hp.grows.names q).message
      fun hm' => hm'.mono hp.grows.size_le

/-! ### Steps -/

/-- Catching up with the call graph stays within a closed bound. -/
theorem Within.refreshSolver (hb : b.Closed c) (h : r.Core c waiting) (hw : r.Within b)
    (id : SolverId) : (r.modifySolver id fun s => s.refresh c r.graph).Within b :=
  hw.modifySolver fun {q s} hq hs => by
    obtain ⟨hseed, hdirection⟩ := (h.ids hq).of_solver? hs
    exact (hw.solver hq hs).refresh
      (hb.closed (hw.admits h) (hw.query hq) hw.edge hdirection hseed) (h.kept hs).sound

section

variable (hc : c.weighing.ZeroFree) (h : r.Kept c Nothing) (hw : r.Within b) {s : Solver ω}
  (hs : r.solver? id = some s)
include hc h hw hs

/-- Serving a queue, with the messages passed on, stays within a bound if serving it does and
    passing on what is allowed keeps to it. -/
theorem Within.serveSolver_of_passing (hb : b.Passing c) (hq : r.Names id q) {queue : WorkQueue}
    (hserved : (s.serveQueue c r.graph queue).Within (b.solver r.Names q)) :
    (r.serveSolver c id queue).Within b := by
  obtain ⟨hp, hlegit⟩ := h.takeOut hc hs queue rfl
  have hw₁ : (r.takeOut c id queue).Within b := by
    refine Within.clock (hw.modifySolver fun {q' s'} hq' hs' => ?_)
    cases hs.symm.trans hs'
    cases h.toCore.names_inj hq hq'
    exact { hserved with message := fun hm => nomatch hm }
  rw [serveSolver_eq hs]
  exact hw₁.foldl_handle hb hp.kept hq fun m hm =>
    ⟨hserved.message (mem_reverse.1 hm), hlegit m hm⟩

/-- Serving a queue, with the messages passed on, stays within a closed bound. -/
theorem Within.serveSolver (hb : b.Closed c) (queue : WorkQueue) :
    (r.serveSolver c id queue).Within b := by
  obtain ⟨q, hq⟩ := hw.named hs
  obtain ⟨hseed, hdirection⟩ := (h.ids hq).of_solver? hs
  have hclosed := hb.closed (hw.admits h.toCore) (hw.query hq) hw.edge hdirection hseed
  exact hw.serveSolver_of_passing hc h hs hb.toPassing hq
    ((hw.solver hq hs).serveQueue hc hclosed (h.kept hs).sound queue)

end

/-- Runs stay within a closed bound. -/
theorem maintained_within (hb : b.Closed c) (hc : c.weighing.ZeroFree) :
    Maintained c (Within b) where
  clock hw _ _ := hw.clock
  refresh ho hw id := hw.refreshSolver hb ho.toCore id
  serve ho hw _ _ hs queue := hw.serveSolver hc ho.toKept hs hb queue

/-- Runs stay within a bound that allows more the further they get, if what a solver does is
    allowed at that time and passing things on keeps to it. -/
theorem maintained_within_growing {b : Run ω → RunBound ω} (hb : ∀ r, (b r).Passing c)
    (hc : c.weighing.ZeroFree) (hclock : ∀ r turn phase, b { r with turn, phase } = b r)
    (hgrows : ∀ {r r'}, Grows r r' → (b r).Le (b r'))
    (hrefresh : ∀ {r : Run ω}, r.Orderly c → r.Within (b r) → ∀ {id q s}, r.Names id q →
      r.solver? id = some s → (s.refresh c r.graph).Within ((b r).solver r.Names q))
    (hserve : ∀ {r : Run ω}, r.Orderly c → r.Within (b r) → ∀ {id q s}, r.Names id q →
      r.solver? id = some s → ∀ queue,
      (s.serveQueue c r.graph queue).Within ((b r).solver r.Names q)) :
    Maintained c fun r => r.Within (b r) where
  clock hw turn phase := by
    rw [hclock]
    exact hw.clock
  refresh {r} ho hw id := by
    have hw' : (r.modifySolver id fun s => s.refresh c r.graph).Within (b r) :=
      hw.modifySolver fun hq hs => hrefresh ho hw hq hs
    exact hw'.mono (hgrows (ho.toKept.refreshSolver id).grows)
  serve {r} ho hw id s hs queue := by
    obtain ⟨q, hq⟩ := hw.named hs
    have hw' := hw.serveSolver_of_passing hc ho.toKept hs (hb r) hq (hserve ho hw hq hs queue)
    exact hw'.mono (hgrows (ho.toKept.serveSolver hc hs queue).grows)

/-! ### Beginning -/

variable (session : Session ω)

theorem orderly_begin (q : Query) :
    (session.begin q).Orderly session.setting ∧ (session.begin q).Names ⟨0⟩ q := by
  cases q with
  | forward q => exact orderly_beginForward session.setting session.graph q
  | backward q => exact orderly_beginBackward session.setting session.graph q

/-- A run begins with the call graph of its session. -/
theorem grows_begin (q : Query) : Grows { graph := session.graph } (session.begin q) := by
  obtain ⟨hp, -⟩ := proceeds_withSolver session.setting session.graph q
  cases q with
  | forward => exact hp.grows
  | backward =>
    simp only [Session.begin, Session.beginBackward]
    split
    · exact hp.grows.trans (hp.kept.subscribe .aliases trivial _).1.grows
    · exact hp.grows

/-- A run begins within a bound that allows its query, if passing things on keeps to it. -/
theorem within_begin {b : RunBound ω} (hb : b.Passing session.setting)
    (hgraph : b.graph = session.graph)
    (hedge : ∀ {x : Crossing} {e}, e ∈ x.edges session.graph → b.edge x e) (hq : b.query q)
    (haliases : .aliases ∈ (session.begin q).subscribers.get ⟨0⟩ →
      ∀ N : Naming, N ⟨0⟩ q → b.subscriber N q .aliases) :
    (session.begin q).Within b := by
  have hempty : ({ graph := session.graph } : Run ω).Within b := by
    refine ⟨hgraph ▸ .refl _, ?_, ?_, ?_, hedge, ?_, ?_⟩ <;>
      simp [solver?, Names, get_empty]
  have hkept := kept_empty session.setting session.graph
  obtain ⟨hp, hid, hfirst⟩ := proceeds_withSolver session.setting session.graph q
  have hw := hempty.withSolver hb hkept.toCore hq
  cases q with
  | forward => exact hw
  | backward =>
    simp only [Session.begin, Session.beginBackward] at haliases ⊢
    split
    · next hreport =>
      rw [if_pos hreport] at haliases
      rw [hfirst] at haliases ⊢
      have hmem := (hp.kept.subscribe .aliases trivial ⟨0⟩).2
      exact hw.subscribe hb hp.kept.toCore hid trivial (haliases hmem _ hid)
    · exact hw

end Run

end DemandAlias
