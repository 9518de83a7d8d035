import DemandAlias.Analysis.Schedule
import DemandAlias.Proofs.Solver.Bound

/-!
# What a run promises

The solvers of a run know nothing of each other; the run sees to it that what one of
them asks for reaches it. Its promises are about what it has noted:

* `Handled`: what a message that was passed on has brought about;
* `Notified`: what a subscriber that was told of an allocation has brought about;
* `Installed`: that a registration is backed by a rule of the solver listened to. A
  registration does not name everything its rule does, but the store it is about
  determines the rest.

Each of them stays true while the run goes on (`Grows`).
-/

namespace DemandAlias.Run

variable {ω : Type}
variable {r r' : Run ω} {sender : SolverId}
variable {requester : SolverId} {p : Program}

/-! ### Growing -/

/-- The run has come upon an unreachable node. -/
def Failed (r : Run ω) : Prop := ∃ n, r.phase = .unsound n

/-- Everything the run has noted is still there. -/
structure Grows (r r' : Run ω) : Prop where
  graph : r.graph.Grows r'.graph
  solvers : ∀ {id s}, r.solver? id = some s → ∃ s', r'.solver? id = some s' ∧ Solver.Grows s s'
  ids : ∀ {q : Query} {id}, r.ids[q]? = some id → r'.ids[q]? = some id
  allocations : ∀ {id q}, q ∈ r.allocations.get id → q ∈ r'.allocations.get id
  subscribers : ∀ {id k}, k ∈ r.subscribers.get id → k ∈ r'.subscribers.get id
  registered : ∀ {x}, x ∈ r.registered → x ∈ r'.registered
  failed : r.Failed → r'.Failed

namespace Grows

theorem refl (r : Run ω) : Grows r r where
  graph := .refl r.graph
  solvers h := ⟨_, h, .refl _⟩
  ids h := h
  allocations h := h
  subscribers h := h
  registered h := h
  failed h := h

theorem trans {r r' r'' : Run ω} (h : Grows r r') (h' : Grows r' r'') : Grows r r'' where
  graph := h.graph.trans h'.graph
  solvers hs := by
    obtain ⟨s', hs', hgrows⟩ := h.solvers hs
    obtain ⟨s'', hs'', hgrows'⟩ := h'.solvers hs'
    exact ⟨s'', hs'', hgrows.trans hgrows'⟩
  ids hq := h'.ids (h.ids hq)
  allocations hq := h'.allocations (h.allocations hq)
  subscribers hk := h'.subscribers (h.subscribers hk)
  registered hx := h'.registered (h.registered hx)
  failed hf := h'.failed (h.failed hf)

end Grows

/-- It is still the same turn, and the run goes on as before or has failed. -/
structure SameClock (r r' : Run ω) : Prop where
  turn : r'.turn = r.turn
  phase : r'.phase = r.phase ∨ r'.Failed

namespace SameClock

theorem refl (r : Run ω) : SameClock r r := ⟨rfl, .inl rfl⟩

theorem trans {r r' r'' : Run ω} (h : SameClock r r') (h' : SameClock r' r'') :
    SameClock r r'' := by
  refine ⟨h'.turn.trans h.turn, h'.phase.elim (fun heq => ?_) .inr⟩
  rcases h.phase with heq' | ⟨n, hn⟩
  · exact .inl (heq.trans heq')
  · exact .inr ⟨n, heq.trans hn⟩

end SameClock

/-- The solver with this number satisfies the predicate. -/
def Has (r : Run ω) (id : SolverId) (P : Solver ω → Prop) : Prop := ∃ s, r.solver? id = some s ∧ P s

theorem Has.mono {id : SolverId} {P : Solver ω → Prop} (h : r.Has id P) (hr : Grows r r')
    (hP : ∀ {s s'}, Solver.Grows s s' → P s → P s') : r'.Has id P := by
  obtain ⟨s, hs, hps⟩ := h
  obtain ⟨s', hs', hgrows⟩ := hr.solvers hs
  exact ⟨s', hs', hP hgrows hps⟩

theorem Has.of_solver? {id : SolverId} {P : Solver ω → Prop} (h : r.Has id P) {s : Solver ω}
    (hs : r.solver? id = some s) : P s := by
  obtain ⟨s', hs', hP⟩ := h
  rwa [some.inj (hs.symm.trans hs')]

/-! ### Copies -/

/-- The state `q'` of `requester` is the copy of the state `q` of `sender`. -/
def IsCopy (r : Run ω) (sender requester : SolverId) (q q' : State) : Prop :=
  ∃ s s', r.solver? sender = some s ∧ r.solver? requester = some s' ∧
    q' = if q = s.bottom then s'.bottom else .generated q (.imported sender)

theorem IsCopy.mono {q q' : State} (h : r.IsCopy sender requester q q') (hr : Grows r r') :
    r'.IsCopy sender requester q q' := by
  obtain ⟨s, s', hs, hs', hq'⟩ := h
  obtain ⟨t, ht, hgrows⟩ := hr.solvers hs
  obtain ⟨t', ht', hgrows'⟩ := hr.solvers hs'
  exact ⟨t, t', ht, ht', by rw [hgrows.bottom, hgrows'.bottom, hq']⟩

/-- The transitions out of the state `q` of `sender` are copied to `requester`, unless it
    is the bottom. -/
def CopiesOut (r : Run ω) (sender requester : SolverId) (q : State) : Prop :=
  r.Has sender fun s => q = s.bottom ∨ .copy sender requester q ∈ r.registered

theorem CopiesOut.mono {q : State} (h : r.CopiesOut sender requester q) (hr : Grows r r') :
    r'.CopiesOut sender requester q := by
  obtain ⟨s, hs, hq⟩ := h
  obtain ⟨s', hs', hgrows⟩ := hr.solvers hs
  exact ⟨s', hs', hq.imp (fun hq => hgrows.bottom ▸ hq) hr.registered⟩

/-! ### Edges -/

/-- The callees of the call site are looked for. -/
def Resolved (p : Program) (r : Run ω) (site : Statement) : Prop :=
  match site.call? with
  | some ⟨.static m, _⟩ => p.defines m = true → m ∈ r.graph.callees site
  | some ⟨.virtual receiver name, _⟩ =>
    ∃ id, r.ids[Query.backward ⟨⟨site, receiver⟩⟩]? = some id ∧
      .resolve site name ∈ r.subscribers.get id
  | none => True

/-- An edge of the call graph stays. -/
theorem Grows.callees (hr : Grows r r') {site : Statement} {m : MethodName}
    (h : m ∈ r.graph.callees site) : m ∈ r'.graph.callees site := by
  have hedge : ⟨site, m⟩ ∈ (Crossing.into site).edges r'.graph :=
    (hr.graph.edges (.into site)).subset (mem_map.2 ⟨m, h, rfl⟩)
  obtain ⟨m', hm', heq⟩ := mem_map.1 hedge
  cases heq
  exact hm'

theorem Resolved.mono {site : Statement} (h : r.Resolved p site) (hr : Grows r r') :
    r'.Resolved p site := by
  unfold Resolved at h ⊢
  split
  · next hcall =>
    simp only [hcall] at h
    exact fun hm => hr.callees (h hm)
  · next hcall =>
    simp only [hcall] at h
    obtain ⟨id, hid, hk⟩ := h
    exact ⟨id, hr.ids hid, hr.subscribers hk⟩
  · trivial

/-- The call sites at which the edges of a crossing are looked for. -/
def sitesOf (p : Program) : Crossing → List Statement
  | .into site => [site]
  | .outOf method => p.callsNamed method.shortName

/-! ### Messages -/

/-- What an alias of what is written to at `store` lets the solver do that writes. -/
def aliasChanges (p : Program) (store : Node) (field : Field) (other : Node) :
    List Statement → List (Change ω)
  | [] => (p.successors store.stmt).flatMap fun t =>
    Move.changes store (.push ⟨t, other.var⟩ (.field field))
  | frame :: frames =>
    [.fieldRule (.out (.located store)) (.push other field),
      .unwind (.single store.var) store.stmt other (frame :: frames)]

theorem forall_aliasChanges {P : Change ω → Prop} {store : Node} {field : Field} {other : Node}
    {frames : List Statement}
    (hmove : frames = [] → ∀ t ∈ p.successors store.stmt,
      ∀ x ∈ Move.changes store (.push ⟨t, other.var⟩ (.field field)), P x)
    (hunwind : ∀ frame rest, frames = frame :: rest →
      P (.fieldRule (.out (.located store)) (.push other field)) ∧
      P (.unwind (.single store.var) store.stmt other (frame :: rest))) :
    ∀ x ∈ aliasChanges p store field other frames, P x := by
  cases frames with
  | nil => exact List.forall_mem_flatMap.2 (hmove rfl)
  | cons =>
    exact forall_mem_cons.2 ((hunwind _ _ rfl).imp_right forall_mem_singleton.2)

/-- What passing on a message has brought about. -/
def Handled (c : Setting ω) (r : Run ω) (sender : SolverId) : Message → Prop
  | .wanted x => c.options.onTheFly = true → ∀ site ∈ sitesOf c.program x, r.Resolved c.program site
  | .fieldWrite store base field =>
    ∃ id, r.ids[Query.backward ⟨⟨store.stmt, base⟩⟩]? = some id ∧
      .fieldWrite sender store base field ∈ r.subscribers.get id
  | .allocation node label continuation =>
    ∀ h : node.stmt.allocates node.var = true,
      (label = .epsilon → ⟨node, h⟩ ∈ r.allocations.get sender) ∧
      (label ≠ .epsilon → ∃ id, r.ids[Query.forward ⟨node, h⟩]? = some id ∧
        .storesOf id sender label continuation ∈ r.registered)
  | .aliasAt requester store field other frames =>
    r.Has requester fun s => ∀ x ∈ aliasChanges c.program store field other frames,
      s.Made (fun _ => True) x
  | .storeFound requester continuation store value =>
    .storeContext sender requester ⟨store.stmt, value⟩ ∈ r.registered ∧
      r.Has requester fun s =>
        s.fields.Listens (.out continuation) (.popMatch ⟨store.stmt, value⟩)
  | .storeContext requester value context =>
    r.CopiesOut sender requester context ∧ ∃ q, r.IsCopy sender requester context q ∧
      r.Has requester fun s => callAt value q ∈ s.calls.transitions
  | .copied requester t =>
    r.CopiesOut sender requester t.source ∧ r.CopiesOut sender requester t.target ∧
      ∃ q q', r.IsCopy sender requester t.source q ∧ r.IsCopy sender requester t.target q' ∧
        r.Has requester fun s => ⟨q, t.label, q'⟩ ∈ s.calls.transitions
  | .unreachable _ => r.Failed

theorem Handled.mono {c : Setting ω} {m : Message} (h : r.Handled c sender m) (hr : Grows r r') :
    r'.Handled c sender m := by
  cases m with
  | wanted => exact fun hfly site hsite => (h hfly site hsite).mono hr
  | fieldWrite =>
    obtain ⟨id, hid, hk⟩ := h
    exact ⟨id, hr.ids hid, hr.subscribers hk⟩
  | allocation =>
    refine fun hn => ⟨fun hl => hr.allocations ((h hn).1 hl), fun hl => ?_⟩
    obtain ⟨id, hid, hx⟩ := (h hn).2 hl
    exact ⟨id, hr.ids hid, hr.registered hx⟩
  | aliasAt =>
    exact Has.mono h hr fun hs hP x hx => (hP x hx).mono hs fun _ _ => .inr trivial
  | storeFound =>
    exact ⟨hr.registered h.1, h.2.mono hr fun hs hP => hs.fieldRules hP⟩
  | storeContext =>
    obtain ⟨hout, q, hq, hhas⟩ := h
    exact ⟨hout.mono hr, q, hq.mono hr, hhas.mono hr fun hs hP => hs.calls hP⟩
  | copied =>
    obtain ⟨hout, hout', q, q', hq, hq', hhas⟩ := h
    exact ⟨hout.mono hr, hout'.mono hr, q, q', hq.mono hr, hq'.mono hr,
      hhas.mono hr fun hs hP => hs.calls hP⟩
  | unreachable => exact hr.failed h

/-! ### Subscribers and registrations -/

/-- What telling a subscriber of an allocation has brought about. -/
def Notified (p : Program) (r : Run ω) (q : ForwardQuery) : Subscriber → Prop
  | .fieldWrite requester store _ _ =>
    ∃ id, r.ids[Query.forward q]? = some id ∧ .aliasesAt id requester store ∈ r.registered
  | .resolve site name =>
    ∀ m, (q.className?.bind fun c => p.dispatch c name) = some m → m ∈ r.graph.callees site
  | .aliases => ∃ id, r.ids[Query.forward q]? = some id

theorem Notified.mono {q : ForwardQuery} {k : Subscriber} (h : r.Notified p q k) (hr : Grows r r') :
    r'.Notified p q k := by
  cases k with
  | fieldWrite =>
    obtain ⟨id, hid, hx⟩ := h
    exact ⟨id, hr.ids hid, hr.registered hx⟩
  | resolve => exact fun m hm => hr.callees (h m hm)
  | aliases => exact h.imp fun _ => hr.ids

/-- The rule that a registration stands for listens. -/
def Installed (r : Run ω) : Registration → Prop
  | .aliasesAt id requester store =>
    r.Has id fun s => ∀ base field, store.stmt.action = .store base field store.var →
      s.fields.Listens .all (.request (.aliasesAt requester store base field)) ∧
        (.single base, .callerFrames requester store field []) ∈ s.callRequests
  | .storesOf id requester field continuation =>
    r.Has id fun s => s.fields.Listens .all (.request (.storesOf requester field continuation))
  | .storeContext id requester value =>
    r.Has id fun s => ∀ base field, value.stmt.action = .store base field value.var →
      s.calls.Listens (.outBy (.single base) value.stmt) (.request (.storeContext requester value))
  | .copy id requester q => r.Has id fun s => s.calls.Listens (.out q) (.request (.copy requester))

theorem Installed.mono {x : Registration} (h : r.Installed x) (hr : Grows r r') :
    r'.Installed x := by
  cases x with
  | aliasesAt =>
    exact Has.mono h hr fun hs hP base field hstore =>
      (hP base field hstore).imp hs.fieldRules hs.callRequests
  | storesOf =>
    exact Has.mono h hr fun hs hP => hs.fieldRules hP
  | storeContext =>
    exact Has.mono h hr fun hs hP base field hstore => hs.callRules (hP base field hstore)
  | copy => exact Has.mono h hr fun hs hP => hs.callRules hP

end DemandAlias.Run
