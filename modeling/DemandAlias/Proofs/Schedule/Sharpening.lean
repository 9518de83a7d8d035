import DemandAlias.Proofs.Schedule.Repetition
import DemandAlias.Proofs.Schedule.Reporting

/-!
# Resolving calls on the fly

Calls can be resolved beforehand, by the class hierarchy, or when they are come to, by asking for
the objects that are their receivers. The class of such an object is one of those of the
hierarchy, so there are no other edges then, and what follows from fewer edges is no more.

A run that resolves calls beforehand leaves the call graph as it is (`RunBound.still`). Together
with what a run can speak of, it bounds the runs that resolve calls on the fly, which have more
solvers but not more of what the others have (`Run.sharpened`, `Complete.closed_sharpened`). So
all that such a run answers is answered with the class hierarchy too (`Session.sharpens`).
-/

namespace DemandAlias

variable {site : Statement} {m : MethodName}

variable {ω : Type} {c : Setting ω} {p : Program}

/-! ### What two bounds allow -/

namespace Bound

/-- What both bounds allow. -/
def meet (b b' : Bound ω) : Bound ω where
  call t := b.call t ∧ b'.call t
  field t := b.field t ∧ b'.field t
  callRule topic rule := b.callRule topic rule ∧ b'.callRule topic rule
  fieldRule topic rule := b.fieldRule topic rule ∧ b'.fieldRule topic rule
  message m := b.message m ∧ b'.message m
  watcher x n := b.watcher x n ∧ b'.watcher x n

variable {b b' : Bound ω}

theorem Allows.meet {x : Change ω} (h : b.Allows x) (h' : b'.Allows x) : (b.meet b').Allows x := by
  cases x with
  | reachByCalls _ | reachByFields _ => trivial
  | _ => exact ⟨h, h'⟩

theorem Le.meet {b₁ b₁' b₂ b₂' : Bound ω} (h₁ : b₁.Le b₁') (h₂ : b₂.Le b₂') :
    (b₁.meet b₂).Le (b₁'.meet b₂') where
  call := .imp h₁.call h₂.call
  field := .imp h₁.field h₂.field
  callRule := .imp h₁.callRule h₂.callRule
  fieldRule := .imp h₁.fieldRule h₂.fieldRule
  message := .imp h₁.message h₂.message
  watcher := .imp h₁.watcher h₂.watcher

theorem Closed.meet [Weight ω] {g : CallGraph} {s : Solver ω} (h : b.Closed c g s)
    (h' : b'.Closed c g s) : (b.meet b').Closed c g s where
  callRules hrule hmem ht w x hx :=
    .meet (h.callRules hrule.1 hmem ht.1 w x hx) (h'.callRules hrule.2 hmem ht.2 w x hx)
  fieldRules hrule hmem ht x hx :=
    .meet (h.fieldRules hrule.1 hmem ht.1 x hx) (h'.fieldRules hrule.2 hmem ht.2 x hx)
  nodes hcall hfield hincluded x hx :=
    .meet (h.nodes hcall.1 hfield.1 hincluded x hx) (h'.nodes hcall.2 hfield.2 hincluded x hx)
  crossings hcall hfield hincluded x hx :=
    ⟨h.crossings hcall.1 hfield.1 hincluded x hx, h'.crossings hcall.2 hfield.2 hincluded x hx⟩
  edges hx he y hy := .meet (h.edges hx.1 he y hy) (h'.edges hx.2 he y hy)
  wanted hx := ⟨h.wanted hx.1, h'.wanted hx.2⟩
  unreachable hcall hfield hcheck hunreachable :=
    ⟨h.unreachable hcall.1 hfield.1 hcheck hunreachable,
      h'.unreachable hcall.2 hfield.2 hcheck hunreachable⟩

end Bound

namespace RunBound

/-- What both bounds allow of runs that begin with the same call graph. -/
def meet (b b' : RunBound ω) : RunBound ω where
  graph := b.graph
  query q := b.query q ∧ b'.query q
  solver N q := (b.solver N q).meet (b'.solver N q)
  edge x e := b.edge x e ∧ b'.edge x e
  allocation q a := b.allocation q a ∧ b'.allocation q a
  subscriber N q k := b.subscriber N q k ∧ b'.subscriber N q k

variable {b b' : RunBound ω} {N : Naming}

theorem Admits.of_meet (h : (b.meet b').Admits N) : b.Admits N ∧ b'.Admits N :=
  ⟨⟨h.inj, fun hq => (h.query hq).1⟩, ⟨h.inj, fun hq => (h.query hq).2⟩⟩

section Meet

variable (hgraph : b'.graph = b.graph)

include hgraph

theorem Links.meet (h : b.Links site m) (h' : b'.Links site m) : (b.meet b').Links site m := by
  rcases h with h | h
  · exact .inl h
  · rcases h' with h' | h'
    · exact .inl (hgraph ▸ h')
    · exact .inr ⟨⟨h.1, h'.1⟩, h.2, h'.2⟩

theorem Resolves.meet (h : b.Resolves p N site) (h' : b'.Resolves p N site) :
    (b.meet b').Resolves p N site := by
  unfold Resolves at h h' ⊢
  generalize site.call? = call at h h' ⊢
  rcases call with _ | ⟨m | ⟨receiver, name⟩, args⟩
  · trivial
  · exact fun hm => .meet hgraph (h hm) (h' hm)
  · exact ⟨⟨h.1, h'.1⟩, h.2, h'.2⟩

omit hgraph in
theorem Copies.meet {q : Query} {requester : SolverId} {state : State}
    (h : b.Copies N q requester state) (h' : b'.Copies N q requester state) :
    (b.meet b').Copies N q requester state := by
  rcases h with h | h
  · exact .inl h
  · exact h'.imp_right fun h' => ⟨h, h'⟩

theorem Passes.meet {sender : SolverId} {q : Query} {m : Message} (h : b.Passes c N sender q m)
    (h' : b'.Passes c N sender q m) :
    (b.meet b').Passes c N sender q m := by
  cases m with
  | wanted => exact fun hfly site hsite => .meet hgraph (h hfly site hsite) (h' hfly site hsite)
  | fieldWrite => exact ⟨⟨h.1, h'.1⟩, h.2, h'.2⟩
  | allocation =>
    intro hn
    refine ⟨fun hl => ⟨(h hn).1 hl, (h' hn).1 hl⟩, fun hl => ?_⟩
    exact ⟨⟨((h hn).2 hl).1, ((h' hn).2 hl).1⟩, ((h hn).2 hl).2, ((h' hn).2 hl).2⟩
  | aliasAt =>
    exact fun q' hq' x hx => .meet (h q' hq' x hx) (h' q' hq' x hx)
  | storeFound =>
    exact ⟨fun q' hq' => ⟨h.1 q' hq', h'.1 q' hq'⟩, h.2, h'.2⟩
  | storeContext =>
    exact ⟨h.1.meet h'.1, fun q' hq' => ⟨h.2 q' hq', h'.2 q' hq'⟩⟩
  | copied =>
    exact ⟨h.1.meet h'.1, h.2.1.meet h'.2.1, fun q' hq' => ⟨h.2.2 q' hq', h'.2.2 q' hq'⟩⟩
  | unreachable => trivial

theorem Notifies.meet {a : ForwardQuery} {k : Subscriber} (h : b.Notifies p N a k)
    (h' : b'.Notifies p N a k) : (b.meet b').Notifies p N a k := by
  cases k with
  | resolve => exact fun m hm => .meet hgraph (h m hm) (h' m hm)
  | fieldWrite =>
    exact ⟨⟨h.1, h'.1⟩, fun x hx => .meet (h.2 x hx) (h'.2 x hx)⟩
  | aliases => exact ⟨h, h'⟩

end Meet

/-! ### Calls resolved beforehand -/

/-- No edge is added to the call graph. -/
def still (graph : CallGraph) : RunBound ω where
  graph
  query _ := True
  solver _ _ := ⟨fun _ => True, fun _ => True, fun _ _ => True, fun _ _ => True, fun _ => True,
    fun _ _ => True⟩
  edge x e := e ∈ x.edges graph
  allocation _ _ := True
  subscriber _ _ k := ∀ site name, k ≠ .resolve site name

theorem closed_still [Weight ω] (hresolved : c.options.onTheFly = false) (graph : CallGraph) :
    (still graph : RunBound ω).Closed c := by
  have hallowed : ∀ {N q} {x : Change ω}, ((still graph).solver N q).Allows x := by
    intro N q x
    cases x <;> trivial
  refine ⟨⟨fun _ _ => ⟨id, id, id, id, id, id⟩, fun _ _ _ hk => hk,
    fun _ => ⟨trivial, trivial, trivial, trivial⟩, ?_, ?_⟩, fun _ _ _ _ _ _ _ => ?_⟩
  · intro N sender q m size _ _ _ _
    cases m with
    | wanted =>
      intro hfly
      rw [hresolved] at hfly
      cases hfly
    | fieldWrite => exact ⟨trivial, fun _ _ => nofun⟩
    | allocation =>
      exact fun _ => ⟨fun _ => trivial, fun _ => ⟨trivial, trivial⟩⟩
    | aliasAt => exact fun _ _ _ _ => hallowed
    | storeFound => exact ⟨fun _ _ => trivial, trivial⟩
    | storeContext => exact ⟨.inr trivial, fun _ _ => trivial⟩
    | copied => exact ⟨.inr trivial, .inr trivial, fun _ _ => trivial⟩
    | unreachable => trivial
  · intro N q k a size _ _ hk _ _
    cases k with
    | resolve site name => exact absurd rfl (hk site name)
    | fieldWrite => exact ⟨trivial, fun _ _ => hallowed⟩
    | aliases => trivial
  · exact ⟨fun _ _ _ _ _ _ => hallowed, fun _ _ _ _ _ => hallowed, fun _ _ _ _ _ => hallowed,
      fun _ _ _ _ _ => trivial, fun _ _ _ _ => hallowed, fun _ => trivial, fun _ _ _ _ => trivial⟩

end RunBound

/-! ### Calls resolved on the fly -/

/-- The class of the object that a statement creates, if it does. -/
def Statement.createdClass? (s : Statement) : Option ClassName :=
  match s.action with
  | .assign _ (.alloc className) => some className
  | _ => none

namespace Program

/-- The statement of the program is a virtual call of this name. -/
def Invokes (p : Program) (site : Statement) (name : String) : Prop :=
  site ∈ p.statements ∧ ∃ receiver args, site.call? = some ⟨.virtual receiver name, args⟩

/-- The classes of all objects that the program creates are declared. -/
def DeclaresCreated (p : Program) : Prop :=
  ∀ s ∈ p.statements, ∀ className ∈ s.createdClass?,
    ∃ declared ∈ p.classes, declared.name = className

instance (p : Program) : Decidable p.DeclaresCreated :=
  inferInstanceAs (Decidable (∀ s ∈ p.statements, _))

variable {p : Program}

/-- The class hierarchy has what is called on an object that the program creates. -/
theorem Invokes.mem_callees (hdeclared : p.DeclaresCreated) {name : String}
    (h : p.Invokes site name) {a : ForwardQuery} (ha : a.node.stmt ∈ p.statements)
    (hm : (a.className?.bind fun c => p.dispatch c name) = some m) :
    m ∈ (classHierarchy p).callees site := by
  obtain ⟨hsite, receiver, args, hcall⟩ := h
  obtain ⟨className, hclass, hdispatch⟩ := bind_eq_some_iff.1 hm
  obtain ⟨declared, hmem, rfl⟩ := hdeclared _ ha className hclass
  refine CallGraph.mem_callees_classHierarchy_iff.2 ⟨hsite, _, hcall, ?_⟩
  exact mem_filterMap.2 ⟨declared, hmem, hdispatch⟩

end Program

namespace CallGraph

theorem grows_classHierarchy (p : Program) : empty.Grows (classHierarchy p) := by
  unfold classHierarchy
  refine List.foldlRecOn (motive := empty.Grows) _ _ (.refl _) fun g hg site _ => ?_
  cases site.call? with
  | none => exact hg
  | some =>
    exact List.foldlRecOn (motive := empty.Grows) _ _ hg
      fun g hg m _ => hg.trans (.addEdge g site m)

/-- An edge of the class hierarchy is found from both of its ends. -/
theorem links_of_mem_callees {b : RunBound ω}
    (hedge : ∀ {x : Crossing} {e}, e ∈ x.edges (classHierarchy p) → b.edge x e)
    (hm : m ∈ (classHierarchy p).callees site) : b.Links site m :=
  .inr ⟨hedge (Grows.mem_edges_into.2 hm),
    hedge (Grows.mem_edges_outOf.2 (mem_callers_classHierarchy.2 hm))⟩

end CallGraph

namespace Run

/-- What a run may have that resolves calls on the fly, if the solvers of the queries of `r` have
    no more than they have there, except that they serve others. -/
def resolving (c : Setting ω) (r : Run ω) : RunBound ω :=
  { r.isolated c .empty with
    edge := fun x e => e ∈ x.edges (.classHierarchy c.program)
    subscriber := fun N q k => (r.isolated c .empty).subscriber N q k ∨
      ∃ site name, k = .resolve site name ∧ c.program.Invokes site name }

/-- What such a run may have and can speak of. -/
def sharpened (c : Setting ω) (r : Run ω) (V : Vocabulary c.program) : RunBound ω :=
  (r.resolving c).meet (V.bound .empty)

section Resolving

variable {r : Run ω}

/-- The callees of a call of the program may be looked for. -/
theorem resolves_resolving {N : Naming} (hsite : site ∈ c.program.statements) :
    (r.resolving c).Resolves c.program N site := by
  unfold RunBound.Resolves
  split
  · next m args hcall =>
    refine fun hm => CallGraph.links_of_mem_callees (p := c.program) (fun he => he) ?_
    refine CallGraph.mem_callees_classHierarchy_iff.2 ⟨hsite, _, hcall, ?_⟩
    simp [CallGraph.possibleCallees, hm]
  · next receiver name args hcall =>
    exact ⟨trivial, .inr ⟨site, name, rfl, hsite, receiver, args, hcall⟩⟩
  · trivial

end Resolving

variable [Weight ω] [DecidableEq ω] [ZeroFree ω] {r : Run ω} {options : Options}

/-- A run that has nothing left to do, with calls that are resolved beforehand, bounds runs that
    resolve them on the fly. -/
theorem Complete.closed_sharpened (hc : c.weighing.ZeroFree)
    (hresolved : c.options.onTheFly = false)
    (hcheck : options.checkUnreachable = true → c.options.checkUnreachable = true)
    (hp : c.program.IsLaidOut) (hdeclared : c.program.DeclaresCreated) (h : r.Complete c)
    (hgraph : (classHierarchy c.program).Grows r.graph)
    (hstill : ∀ {x : Crossing} {e}, e ∈ x.edges r.graph → e ∈ x.edges (.classHierarchy c.program))
    (V : Vocabulary c.program) : (r.sharpened c V).Closed { c with options } := by
  have hb := h.closed_isolated hc hresolved ((CallGraph.grows_classHierarchy _).trans hgraph)
  have hV : (V.bound .empty).Closed { c with options } :=
    Vocabulary.closed_bound (c := { c with options }) hp.spans .empty
  have hsame : (V.bound .empty : RunBound ω).graph = (r.resolving c).graph := rfl
  have hle : (r.isolated c .empty).Le (r.resolving c) :=
    ⟨rfl, id, fun _ _ => ⟨id, id, id, id, id, id⟩, hstill, id, .inl⟩
  have hadmits : ∀ {N}, (r.sharpened c V).Admits N → (r.isolated c .empty).Admits N :=
    fun hN => ⟨hN.inj, fun _ => trivial⟩
  refine ⟨⟨fun hN q => (hb.solver_mono hN q).meet (hV.solver_mono hN q), ?_, ?_, ?_, ?_⟩, ?_⟩
  · intro N N' hN q k hk
    exact hk.imp (.imp_left (hb.subscriber_mono hN)) (hV.subscriber_mono hN)
  · intro N q hq
    obtain ⟨hcall, hfield, hcalls, hfields⟩ := hb.start (N := N) hq.1
    obtain ⟨hcall', hfield', hcalls', hfields'⟩ := hV.start (N := N) hq.2
    exact ⟨⟨hcall, hcall'⟩, ⟨hfield, hfield'⟩, ⟨hcalls, hcalls'⟩, hfields, hfields'⟩
  · intro N sender q m size hN hq hm hlegit
    refine .meet hsame ?_ (hV.message hN.of_meet.2 hq hm.2 hlegit)
    -- Only the calls that are come to are dealt with otherwise.
    cases m with
    | wanted x =>
      intro _ site hsite
      refine resolves_resolving ?_
      cases x with
      | into =>
        rw [mem_singleton.1 hsite]
        exact hm.2
      | outOf => exact (mem_filter.1 hsite).1
    | _ => exact .of_le hle (hb.message (hadmits hN) hq hm.1 hlegit)
  · intro N q k a size hN hq hk hlegit ha
    refine .meet hsame ?_ (hV.notice hN.of_meet.2 hq.2 hk.2 hlegit ha.2)
    rcases hk.1 with hk | ⟨site, name, rfl, hinvokes⟩
    · exact .of_le hle (hb.notice (hadmits hN) hq.1 hk hlegit ha.1)
    -- The receiver is created by the program, so its class is declared and in the hierarchy.
    · exact fun m hm => CallGraph.links_of_mem_callees (p := c.program) (fun he => he)
        (hinvokes.mem_callees hdeclared ha.2.1 hm)
  · intro N q hN hq g s hg hdirection hseed
    have hclosed := hb.closed (hadmits hN) hq.1 (fun he => (hgraph.edges _).subset (hg he).1)
      hdirection hseed
    exact (hclosed.configure hcheck).meet
      (hV.closed hN.of_meet.2 hq.2 (fun he => (hg he).2) hdirection hseed)

end Run

namespace Session

open Run

section Weights

variable [Weight ω] [DecidableEq ω] [ZeroFree ω] {q : Query} {r r' : Run ω}

/-- A run with calls that are resolved beforehand finds no edge. -/
theorem ConvergesTo.edges_still {session : Session ω} (hc : session.setting.weighing.ZeroFree)
    (hresolved : session.setting.options.onTheFly = false) (h : session.ConvergesTo q r)
    {x : Crossing} {e : CallEdge} (he : e ∈ x.edges r.graph) : e ∈ x.edges session.graph := by
  have hb := RunBound.closed_still hresolved session.graph
  have hw := within_begin session (q := q) hb.toPassing rfl (fun he => he) trivial
    fun _ _ _ _ _ => nofun
  exact (h.within hc hb hw).edge he

/-- A session in which calls are resolved on the fly or beforehand. -/
def resolving (p : Program) (scope : Scope) (weighing : Weighing ω) (options : Options)
    (onTheFly : Bool) : Session ω :=
  start ⟨p, scope, weighing, { options with onTheFly }⟩

variable {p : Program} {scope : Scope} {weighing : Weighing ω} {options : Options}

/-- A run that resolves calls beforehand bounds one that resolves them on the fly. -/
theorem ConvergesTo.within_sharpened (hc : weighing.ZeroFree) (hp : p.IsLaidOut)
    (hdeclared : p.DeclaresCreated) (hq : q.node.stmt ∈ p.statements)
    (h : (resolving p scope weighing options true).ConvergesTo q r)
    (h' : (resolving p scope weighing options false).ConvergesTo q r') :
    r.Within (r'.sharpened (resolving p scope weighing options false).setting
      (.asking p q.node.var)) := by
  have hc' : (resolving p scope weighing options false).setting.weighing.ZeroFree := hc
  have hcheck : ({ options with onTheFly := true } : Options).checkUnreachable = true →
      (resolving p scope weighing options false).setting.options.checkUnreachable = true := id
  have hb : (r'.sharpened (resolving p scope weighing options false).setting
      (.asking p q.node.var)).Closed (resolving p scope weighing options true).setting :=
    (h'.complete hc').closed_sharpened hc rfl hcheck hp hdeclared (h'.grows_graph hc')
      (h'.edges_still hc' rfl) _
  -- On the fly there is no edge at the beginning.
  have hnone : ∀ {x : Crossing} {e}, e ∉ x.edges .empty := by
    intro x e he
    rw [CallGraph.listedBy_empty.edges] at he
    cases x <;> cases he
  refine h.within hc hb (within_begin _ hb.toPassing rfl (fun he => absurd he hnone) ?_ ?_)
  · exact ⟨trivial, hq, mem_cons_self⟩
  · exact fun _ _ _ => ⟨.inl (.inr (.inl rfl)), trivial⟩

omit [ZeroFree ω] in
/-- The solver of a query that both runs raise has no more if calls are resolved on the fly. -/
theorem embeds_of_within_sharpened {c c' : Setting ω} {V : Vocabulary c'.program}
    (hr : r.Complete c) (hr' : r'.Complete c') (hw : r.Within (r'.sharpened c' V))
    {id id' : SolverId} {s s' : Solver ω} (hid : r.Names id q) (hid' : r'.Names id' q)
    (hs : r.solver? id = some s) (hs' : r'.solver? id' = some s') :
    s.Embeds (r.Names.Same r'.Names) s' := by
  have hin : s.Within (((r'.isolated c' .empty).solver r.Names q).meet _) := hw.solver hid hs
  rw [solver_isolated hid' hs'] at hin
  have hcalls : ∀ t ∈ s.calls.transitions, ∃ t' ∈ s'.calls.transitions,
      Transition.Matches (r.Names.Same r'.Names) t t' :=
    fun _ ht => (hin.call ht).1.resolve_right False.elim
  have hfields : ∀ t ∈ s.fields.transitions, t ∈ s'.fields.transitions :=
    fun _ ht => (hin.field ht).1.resolve_right False.elim
  exact ⟨fun hn => hr.processed hr' hs hs' hcalls hfields hn, fun ht => hfields _ ht,
    fun ht => hcalls _ ht⟩

end Weights

/-- Resolving calls on the fly only makes answers sharper: if all classes are declared of which
    objects are created, a run that does so finds no edges but those of the class hierarchy, and all
    that it answers is answered by the run with the class hierarchy as well. -/
theorem sharpens {d : Description} {p : Program} (hp : d.resolve = .ok p)
    (hdeclared : p.DeclaresCreated) (scope : Scope) (options : Options) {q : Query}
    (hq : q.node.stmt ∈ p.statements) {r r' : Run Reach}
    (h : (resolving p scope .reach options true).ConvergesTo q r)
    (h' : (resolving p scope .reach options false).ConvergesTo q r') :
    (∀ (x : Crossing) e, e ∈ x.edges r.graph → e ∈ x.edges (.classHierarchy p)) ∧
      AnswersWithin (resolving p scope .reach options true) r
        (resolving p scope .reach options false) r' q := by
  have hfree : (Weighing.reach).ZeroFree := zeroFree_reach
  have hcomplete := h.complete hfree
  have hcomplete' := h'.complete hfree
  have hw := h.within_sharpened hfree (isLaidOut_of_resolve hp) hdeclared hq h'
  refine ⟨fun x e he => (hw.edge he).1, h.answersWithin rfl rfl rfl h' ?_ fun a ha => ?_⟩
  · exact fun hid hid' hs hs' => embeds_of_within_sharpened hcomplete hcomplete' hw hid hid' hs hs'
  · obtain ⟨q', hq', hallowed, -⟩ := hw.allocation ha
    cases hcomplete.names_inj (h.names hfree) hq'
    exact hallowed ⟨0⟩ (h'.names hfree)

end Session

/-! ### An example -/

namespace Boxes

/-- The session with calls resolved on the fly or beforehand. -/
def resolvingSession (onTheFly : Bool) : Session Reach :=
  .resolving program .everything .reach options onTheFly

theorem declaresCreated : program.DeclaresCreated := by decide

theorem converges_hierarchy : ((Run.Listing.begin (resolvingSession false).setting
    (hierarchyEdges program) (.backward query)).advance
    (resolvingSession false).setting 0 1000).phase = .converged := by
  decide +kernel

end Boxes

/-- For a box that is filled and emptied by methods, what is answered on the fly is answered with
    the class hierarchy. -/
theorem Session.sharpens_boxes : Boxes.description.resolve = .ok Boxes.program ∧
    Boxes.program.DeclaresCreated ∧
    ∃ r r', (Boxes.resolvingSession true).ConvergesTo (.backward Boxes.query) r ∧
      (Boxes.resolvingSession false).ConvergesTo (.backward Boxes.query) r' ∧
      (∀ (x : Crossing) e, e ∈ x.edges r.graph → e ∈ x.edges (.classHierarchy Boxes.program)) ∧
      AnswersWithin (Boxes.resolvingSession true) r (Boxes.resolvingSession false) r'
        (.backward Boxes.query) := by
  refine ⟨Boxes.resolve_description, Boxes.declaresCreated, ?_⟩
  obtain ⟨r, h, -⟩ := Boxes.exists_first
  have hgraph : (Boxes.resolvingSession false).graph.ListedBy
      (hierarchyEdges Boxes.program) := listedBy_classHierarchy _
  obtain ⟨r', h', -⟩ := exists_convergesTo hgraph Boxes.converges_hierarchy
  exact ⟨r, r', h, h', sharpens Boxes.resolve_description Boxes.declaresCreated .everything
    Boxes.options (by decide) h h'⟩

end DemandAlias
