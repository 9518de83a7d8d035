import DemandAlias.Proofs.Program.Vocabulary
import DemandAlias.Proofs.Run.Evaluation

/-!
# Excluded methods

The analysis leaves the methods alone that its scope excludes. Nodes in them may be asked about, by
the query or when the receivers of calls are looked for, but the solver of such a query does
nothing: it has the two transitions it started with and never comes to any others. No other solver
comes to a node in an excluded method, whichever way values take: into callees and back to callers,
to the aliases of what is written to, or to the contexts of stores that are found
(`Run.RespectsScope`, `respectsScope_of_reachable`).
-/

namespace DemandAlias

open Solver

variable {ω : Type}

/-- The method of the node is one that the analysis looks at. -/
def Scope.Includes (scope : Scope) (n : Node) : Prop := scope.excludes n.stmt.method = false

/-- The node is in a transition of one of the automata. -/
def Solver.Mentions (s : Solver ω) (n : Node) : Prop :=
  (∃ q, callAt n q ∈ s.calls.transitions) ∨ ∃ l q, fieldAt n l q ∈ s.fields.transitions

/-- The automata have the transitions of the seed and no others. -/
structure Solver.IsUntouched (s : Solver ω) : Prop where
  call : ∀ t, t ∈ s.calls.transitions ↔ t = callAt s.seed s.bottom
  field : ∀ t, t ∈ s.fields.transitions ↔ t = fieldAt s.seed .epsilon s.bottom

/-- A solver that comes to a node in an excluded method has its seed there, and does nothing. -/
def Run.RespectsScope (scope : Scope) (r : Run ω) : Prop :=
  ∀ id s, r.solver? id = some s → ∀ n, s.Mentions n → scope.excludes n.stmt.method = true →
    n = s.seed ∧ s.IsUntouched

/-! ### What a solver may have -/

/-- The solver with this number has its seed in a method that the analysis looks at. -/
def Naming.Includes (N : Naming) (scope : Scope) (id : SolverId) : Prop :=
  ∃ q, scope.Includes q.node ∧ N id q

theorem Naming.Includes.mono {N N' : Naming} (hN : N.Le N') {scope : Scope} {id : SolverId}
    (h : N.Includes scope id) : N'.Includes scope id := h.imp fun _ => .imp_right (hN ·)

/-! A request, a rule or a message *keeps to* a scope if all nodes that it leads to and all solvers
that it works for are within the scope. -/

section KeepsTo

variable (scope : Scope) (N : Naming)

def CallRequest.KeepsTo : CallRequest → Prop
  | .callerFrames requester n _ _ | .returnSites requester n _ _ | .storeContext requester n =>
    N.Includes scope requester ∧ scope.Includes n
  | .copy requester => N.Includes scope requester

def FieldRequest.KeepsTo : FieldRequest → Prop
  | .allocation n => scope.Includes n
  | .aliasesAt requester n _ _ | .returnAlias requester n _ _ =>
    N.Includes scope requester ∧ scope.Includes n
  | .storesOf requester _ _ => N.Includes scope requester

def CallRule.KeepsTo : CallRule ω → Prop
  | .reach => True
  | .step _ n | .push _ n _ | .pop _ n _ | .popMatch n _ | .unwind n _ => scope.Includes n
  | .request r => r.KeepsTo scope N

def FieldRule.KeepsTo : FieldRule → Prop
  | .reach => True
  | .step n | .push n _ | .pop n _ | .popMatch n => scope.Includes n
  | .request r => r.KeepsTo scope N

def Message.KeepsTo : Message → Prop
  | .wanted _ | .unreachable _ => True
  | .fieldWrite n _ _ | .allocation n _ _ => scope.Includes n
  | .aliasAt requester n _ other _ =>
    N.Includes scope requester ∧ scope.Includes n ∧ scope.Includes other
  | .storeFound requester _ n _ | .storeContext requester n _ =>
    N.Includes scope requester ∧ scope.Includes n
  | .copied requester _ => N.Includes scope requester

/-- What a solver may have whose seed is within the scope. -/
def Bound.keepsTo : Bound ω where
  call t := ∀ v, t.source = .single v → scope.Includes ⟨t.label, v⟩
  field t := ∀ n, t.source = .located n → scope.Includes n
  callRule _ rule := rule.KeepsTo scope N
  fieldRule _ rule := rule.KeepsTo scope N
  message m := m.KeepsTo scope N
  watcher _ _ := True

end KeepsTo

/-- What a solver has whose seed is in an excluded method. -/
def Bound.untouched (seed : Node) : Bound ω where
  call t := t = callAt seed (.bottom seed)
  field t := t = fieldAt seed .epsilon (.bottom seed)
  callRule _ rule := rule = .reach
  fieldRule _ rule := rule = .reach
  message m := m = .unreachable seed
  watcher _ _ := False

/-- What a run may have that respects a scope. -/
def RunBound.keepsTo (scope : Scope) (graph : CallGraph) : RunBound ω where
  graph
  query _ := True
  solver N q := if scope.excludes q.node.stmt.method then .untouched q.node else .keepsTo scope N
  edge _ _ := True
  allocation _ a := scope.Includes a.node
  subscriber N _ k :=
    match k with
    | .fieldWrite requester store _ _ => N.Includes scope requester ∧ scope.Includes store
    | .resolve _ _ | .aliases => True

section Keeping

variable {scope : Scope} {N N' : Naming} {graph : CallGraph} {q : Query}
variable {n : Node} {c : Setting ω}

theorem RunBound.solver_of_excludes (hq : scope.excludes q.node.stmt.method = true) (N : Naming) :
    (keepsTo scope graph : RunBound ω).solver N q = .untouched q.node :=
  if_pos hq

theorem RunBound.solver_of_includes (hq : scope.Includes q.node) (N : Naming) :
    (keepsTo scope graph : RunBound ω).solver N q = .keepsTo scope N :=
  if_neg (eq_false_iff.1 hq)

/-! ### More solvers -/

section Mono

variable (hN : N.Le N')

include hN

theorem CallRule.KeepsTo.mono {rule : CallRule ω} (h : rule.KeepsTo scope N) :
    rule.KeepsTo scope N' := by
  cases rule with
  | request r =>
    cases r with
    | copy => exact Naming.Includes.mono hN h
    | _ => exact And.imp_left (Naming.Includes.mono hN) h
  | _ => exact h

theorem FieldRule.KeepsTo.mono {rule : FieldRule} (h : rule.KeepsTo scope N) :
    rule.KeepsTo scope N' := by
  cases rule with
  | request r =>
    cases r with
    | allocation => exact h
    | storesOf => exact Naming.Includes.mono hN h
    | _ => exact And.imp_left (Naming.Includes.mono hN) h
  | _ => exact h

theorem Message.KeepsTo.mono {m : Message} (h : m.KeepsTo scope N) : m.KeepsTo scope N' := by
  cases m with
  | copied => exact Naming.Includes.mono hN h
  | aliasAt _ _ _ _ _ | storeFound _ _ _ _ | storeContext _ _ _ =>
    exact And.imp_left (Naming.Includes.mono hN) h
  | _ => exact h

end Mono

/-! ### Solvers -/

theorem includes_of_method {n' : Node} (hn : scope.Includes n) (h : n'.stmt.method = n.stmt.method) :
    scope.Includes n' := by
  rw [Scope.Includes, h]
  exact hn

theorem allows_keepsTo_moveChanges (n : Node) {m : Move} (hm : scope.Includes m.target) :
    ∀ x ∈ m.changes n, (Bound.keepsTo scope N : Bound ω).Allows x := by
  refine Move.forall_changes ?_ ?_ <;> rcases m with _ | ⟨_, _ | _⟩ | ⟨_, _ | _⟩ <;> exact hm

/-- A node that a call transition leads from is within the scope if it says so. -/
theorem keepsTo_callAt (hn : scope.Includes n) (q : State) :
    (Bound.keepsTo scope N : Bound ω).call (callAt n q) := fun _ _ => hn

theorem keepsTo_fieldAt (hn : scope.Includes n) (l : Field) (q : State) :
    (Bound.keepsTo scope N : Bound ω).field (fieldAt n l q) := by
  intro n' hsource
  cases hsource
  exact hn

theorem allows_keepsTo_callRule [Weight ω] (c : Setting ω) (bottom : State) {rule : CallRule ω}
    (hrule : rule.KeepsTo scope N) (t : CallTransition) (w : ω) :
    ∀ x ∈ rule.changes c bottom t w, (Bound.keepsTo scope N : Bound ω).Allows x := by
  intro x hx
  cases CallRule.yields_of_mem hx with
  | reach => trivial
  | step | enter | leave | popMatch | unwound => exact keepsTo_callAt hrule _
  | frame => rintro _ ⟨⟩
  | pop | unwind => exact hrule
  | request h => cases h <;> exact hrule

theorem allows_keepsTo_fieldRule {rule : FieldRule} (hrule : rule.KeepsTo scope N)
    {t : FieldTransition} (ht : (Bound.keepsTo scope N : Bound ω).field t) :
    ∀ x ∈ rule.changes t, (Bound.keepsTo scope N : Bound ω).Allows x := by
  intro x hx
  cases FieldRule.yields_of_mem hx with
  | reach => trivial
  | step | push | popMatch => exact keepsTo_fieldAt hrule _ _
  | below => rintro _ ⟨⟩
  | pop => exact hrule
  | request h =>
    cases h with
    | allocation => exact hrule
    | aliasAt _ _ _ _ hsource | returnAlias _ _ _ _ hsource =>
      exact ⟨hrule.1, hrule.2, ht _ hsource⟩
    | storeFound _ _ _ hsource => exact ⟨hrule, ht _ hsource⟩

/-- An edge is followed to a method that the analysis looks at. -/
theorem includes_of_crossing {p : Program} (hp : p.IsLaidOut) {direction : Direction} {x : Crossing}
    {e : CallEdge} {m : Move} (hm : m ∈ x.moves p scope direction n e) :
    scope.Includes m.target := by
  cases Crossing.follows_of_mem hm with
  | enter hcallee hscope _ hstart =>
    rw [Scope.Includes, Move.target, hp.method_of_mem_body hcallee (Array.mem_of_getElem? hstart)]
    exact hscope
  | enterResult hcallee hscope hexit =>
    rw [Scope.Includes, Move.target, (hp.places_of_mem_exits hcallee hexit).2]
    exact hscope
  | leave hscope _ hstmt =>
    rw [Scope.Includes, Move.target, hp.method_of_mem_successors hstmt]
    exact hscope
  | leaveStart hscope => exact hscope

theorem Bound.closed_keepsTo [Weight ω] (hp : c.program.IsLaidOut) (g : CallGraph) (s : Solver ω) :
    (keepsTo c.scope N).Closed c g s where
  callRules hrule _ _ w := allows_keepsTo_callRule c _ hrule _ w
  fieldRules hrule _ ht := allows_keepsTo_fieldRule hrule ht
  nodes {n _ _ _} _ _ hn := Solver.forall_nodeChanges
    (fun _ hm => allows_keepsTo_moveChanges n (includes_of_method hn (hp.method_of_flow hm)))
    (fun _ _ => hn) fun _ _ => hn
  crossings _ _ _ _ _ := trivial
  edges {_ n _} _ _ := List.forall_mem_flatMap.2 fun _ hm =>
    allows_keepsTo_moveChanges n (includes_of_crossing hp hm)
  wanted _ := trivial
  unreachable _ _ _ _ := trivial

theorem Solver.eq_of_callAt {n' : Node} {q q' : State} (h : callAt n q = callAt n' q') :
    n = n' := by
  obtain ⟨stmt, v⟩ := n
  obtain ⟨stmt', v'⟩ := n'
  cases h
  rfl

/-- A solver that has its seed in an excluded method does nothing. -/
theorem Bound.closed_untouched [Weight ω] {seed : Node}
    (hseed : c.scope.excludes seed.stmt.method = true) (g : CallGraph) (s : Solver ω) :
    (untouched seed).Closed c g s where
  callRules := by
    rintro topic _ t rfl _ rfl w x hx
    cases CallRule.yields_of_mem hx
    trivial
  fieldRules := by
    rintro topic _ t rfl _ rfl x hx
    cases FieldRule.yields_of_mem hx
    trivial
  nodes hcall _ hn := by
    rw [eq_of_callAt hcall, hseed] at hn
    cases hn
  crossings hcall _ hn := by
    rw [eq_of_callAt hcall, hseed] at hn
    cases hn
  edges hwatcher := hwatcher.elim
  wanted hwatcher := hwatcher.elim
  unreachable hcall _ _ _ := congrArg Message.unreachable (eq_of_callAt hcall)

/-! ### Messages -/

theorem Query.copyOf_ne_single (sender : SolverId) (q q' : Query) (state : State) (v : Local) :
    q.copyOf sender q' state ≠ .single v := by
  intro heq
  have hvar := Run.var?_copyOf sender q q' state
  rw [heq] at hvar
  cases hvar

theorem RunBound.passes_keepsTo (hp : c.program.IsLaidOut)
    (hN : (keepsTo c.scope graph : RunBound ω).Admits N) {sender : SolverId}
    (hsender : N sender q) (hq : c.scope.Includes q.node) {m : Message} (hm : m.KeepsTo c.scope N) :
    (keepsTo c.scope graph).Passes c N sender q m := by
  have hself : N.Includes c.scope sender := ⟨q, hq, hsender⟩
  -- A solver that is included has the same bound, whatever its query.
  have hsolver : ∀ {id q'}, N.Includes c.scope id → N id q' →
      (keepsTo c.scope graph : RunBound ω).solver N q' = .keepsTo c.scope N := by
    rintro id q' ⟨q₁, hq₁, hid⟩ hq'
    cases hN.inj hid hq'
    exact solver_of_includes hq₁ N
  have hcopies : ∀ {requester} state, N.Includes c.scope requester →
      (keepsTo c.scope graph : RunBound ω).Copies N q requester state := by
    intro requester state hrequester
    refine .inr ?_
    rw [solver_of_includes hq]
    exact hrequester
  cases m with
  | wanted =>
    exact fun _ site _ => resolves_of_free (fun _ => trivial) (fun _ _ => trivial)
      (fun _ _ _ => trivial) c.program site
  | fieldWrite => exact ⟨trivial, hself, hm⟩
  | allocation n =>
    refine fun h => ⟨fun _ => hm, fun _ => ⟨trivial, ?_⟩⟩
    rw [solver_of_includes (q := .forward ⟨n, h⟩) hm]
    exact hself
  | aliasAt _ store =>
    obtain ⟨hrequester, hstore, hother⟩ := hm
    intro q' hq'
    rw [hsolver hrequester hq']
    exact Run.forall_aliasChanges (fun _ t ht => allows_keepsTo_moveChanges store
      (includes_of_method hstore (hp.method_of_mem_successors ht))) fun _ _ _ => ⟨hother, hother⟩
  | storeFound =>
    obtain ⟨hrequester, hstore⟩ := hm
    refine ⟨fun q' hq' => ?_, ?_⟩
    · rw [hsolver hrequester hq']
      exact hstore
    · rw [solver_of_includes hq]
      exact ⟨hrequester, hstore⟩
  | storeContext _ _ context =>
    obtain ⟨hrequester, hvalue⟩ := hm
    refine ⟨hcopies context hrequester, fun q' hq' => ?_⟩
    rw [hsolver hrequester hq']
    exact keepsTo_callAt hvalue _
  | copied _ t =>
    refine ⟨hcopies t.source hm, hcopies t.target hm, fun q' hq' => ?_⟩
    rw [hsolver hm hq']
    exact fun v hv => absurd hv (Query.copyOf_ne_single sender q q' t.source v)
  | unreachable => trivial

theorem RunBound.notifies_keepsTo {p : Program} {k : Subscriber}
    (hk : (keepsTo scope graph : RunBound ω).subscriber N q k) {a : ForwardQuery}
    (ha : scope.Includes a.node) :
    (keepsTo scope graph : RunBound ω).Notifies p N a k := by
  cases k with
  | resolve => exact fun _ _ => .inr ⟨trivial, trivial⟩
  | fieldWrite =>
    refine ⟨trivial, ?_⟩
    rw [solver_of_includes (q := .forward a) ha]
    exact forall_watchChanges hk hk
  | aliases => trivial

/-! ### Runs -/

/-- A run that respects a scope goes on doing so. -/
theorem RunBound.closed_keepsTo [Weight ω] (hp : c.program.IsLaidOut) (graph : CallGraph) :
    (keepsTo c.scope graph : RunBound ω).Closed c where
  solver_mono {N N'} hN q := by
    cases hq : c.scope.excludes q.node.stmt.method with
    | true =>
      rw [solver_of_excludes hq, solver_of_excludes hq]
      exact ⟨id, id, id, id, id, id⟩
    | false =>
      rw [solver_of_includes hq, solver_of_includes hq]
      exact ⟨id, id, CallRule.KeepsTo.mono hN, FieldRule.KeepsTo.mono hN, Message.KeepsTo.mono hN,
        id⟩
  subscriber_mono hN _ k hk := by
    cases k with
    | fieldWrite => exact And.imp_left (Naming.Includes.mono hN) hk
    | _ => exact hk
  start {N q} _ := by
    cases hq : c.scope.excludes q.node.stmt.method with
    | true =>
      rw [solver_of_excludes hq]
      exact ⟨rfl, rfl, rfl, rfl⟩
    | false =>
      rw [solver_of_includes hq]
      exact ⟨keepsTo_callAt hq _, keepsTo_fieldAt hq _ _, trivial, trivial⟩
  closed {N q} _ _ {g s} _ _ _ := by
    cases hq : c.scope.excludes q.node.stmt.method with
    | true =>
      rw [solver_of_excludes hq]
      exact Bound.closed_untouched hq g s
    | false =>
      rw [solver_of_includes hq]
      exact Bound.closed_keepsTo hp g s
  message {N sender q m size} hN hsender hm _ := by
    cases hq : c.scope.excludes q.node.stmt.method with
    | true =>
      rw [solver_of_excludes hq] at hm
      cases hm
      trivial
    | false =>
      rw [solver_of_includes hq] at hm
      exact passes_keepsTo hp hN hsender hq hm
  notice _ _ hk _ ha := notifies_keepsTo hk ha

end Keeping

namespace Run

variable [Weight ω] [DecidableEq ω] [ZeroFree ω] {c : Setting ω} {r : Run ω}

theorem Reachable.within_keepsTo (hp : c.program.IsLaidOut) (hc : c.weighing.ZeroFree)
    (h : Reachable c r) : ∃ graph, r.Within (.keepsTo c.scope graph) :=
  h.maintains hc (fun graph => maintained_within (RunBound.closed_keepsTo hp graph) hc)
    fun graph _ => within_begin ⟨c, graph⟩ (RunBound.closed_keepsTo hp graph).toPassing rfl
      (fun _ => trivial) trivial fun _ _ _ => trivial

/-- A solver with no more than its start is untouched. -/
theorem Orderly.isUntouched (ho : r.Orderly c) {id : SolverId} {s : Solver ω}
    (hs : r.solver? id = some s) (hw : s.Within (.untouched s.seed)) : s.IsUntouched := by
  have hstart := ho.started hs
  refine ⟨fun t => ⟨hw.call, ?_⟩, fun t => ⟨hw.field, ?_⟩⟩
  · rintro rfl
    exact hstart.calls ((mem_transitions_seeded ..).2 ⟨rfl, ZeroFree.one_ne_zero⟩)
  · rintro rfl
    exact hstart.fields ((mem_transitions_seeded ..).2 ⟨rfl, ZeroFree.one_ne_zero⟩)

theorem Reachable.respectsScope (hp : c.program.IsLaidOut) (hc : c.weighing.ZeroFree)
    (h : Reachable c r) : r.RespectsScope c.scope := by
  intro id s hs n hn hexcluded
  obtain ⟨graph, hw⟩ := h.within_keepsTo hp hc
  obtain ⟨q, hq⟩ := hw.named hs
  obtain ⟨hseed, -⟩ := ((h.orderly hc).ids hq).of_solver? hs
  have hwithin := hw.solver hq hs
  cases hq : c.scope.excludes q.node.stmt.method with
  | true =>
    rw [RunBound.solver_of_excludes hq, ← hseed] at hwithin
    refine ⟨?_, (h.orderly hc).isUntouched hs hwithin⟩
    rcases hn with ⟨q, ht⟩ | ⟨l, q, ht⟩
    · exact eq_of_callAt (hwithin.call ht)
    · cases hwithin.field ht
      rfl
  | false =>
    -- A solver with its seed within the scope does not come to the node at all.
    rw [RunBound.solver_of_includes hq] at hwithin
    have hincluded : c.scope.Includes n := by
      rcases hn with ⟨q, ht⟩ | ⟨l, q, ht⟩
      · exact hwithin.call ht n.var rfl
      · exact hwithin.field ht n rfl
    rw [Scope.Includes, hexcluded] at hincluded
    cases hincluded

/-- Runs respect the scope, whether reachability is asked for or trails. -/
theorem respectsScope_of_reachable {d : Description} {p : Program} (hp : d.resolve = .ok p)
    (scope : Scope) (options : Options) :
    (∀ r : Run Reach, Reachable ⟨p, scope, .reach, options⟩ r → r.RespectsScope scope) ∧
    ∀ r : Run Trail, Reachable ⟨p, scope, .trail, options⟩ r → r.RespectsScope scope := by
  have hlaid := isLaidOut_of_resolve hp
  refine ⟨fun r h => ?_, fun r h => ?_⟩
  · exact h.respectsScope hlaid zeroFree_reach
  · exact h.respectsScope hlaid zeroFree_trail

end Run

/-! ### An example -/

namespace Fence

/-- A value is returned by a method that is called by an excluded one. -/
def description : Description where
  classes := [{ name := "Box" }]
  methods := [
    { name := "Box.take"
      receiver := some "this"
      params := ["v"]
      body := [.ret (some (.var "v"))] },
    { name := "Other.give"
      body := [.new "b" "Box", .virtualCall none "b" "take" [.var "b"]] }]

def taken : Local := ⟨⟨"Box.take"⟩, "v"⟩

def given : Local := ⟨⟨"Other.give"⟩, "b"⟩

def call : Action := .call ⟨.virtual given "take", [.var given]⟩

def program : Program where
  classes := [⟨⟨"Box"⟩, none⟩]
  methods := [
    .ofActions ⟨"Box.take"⟩ (some ⟨⟨"Box.take"⟩, "this"⟩) [taken] [.ret (some (.var taken))],
    .ofActions ⟨"Other.give"⟩ none [] [.assign given (.alloc ⟨"Box"⟩), call, .ret none]]
  unreachable := []

theorem resolve_description : description.resolve = .ok program :=
  Description.resolve_inOrder rfl rfl rfl (by decide) (by decide)

def scope : Scope := ⟨fun m => m.text = "Other.give"⟩

def options : Options := { timeout := none, onTheFly := true }

def setting (weighing : Weighing ω) : Setting ω := ⟨program, scope, weighing, options⟩

/-- Which values may be returned? -/
def query : BackwardQuery := ⟨⟨⟨⟨"Box.take"⟩, 0, .ret (some (.var taken))⟩, taken⟩⟩

/-- The receiver of the call, which is asked for to tell whether the method is called. -/
def receiver : Node := ⟨⟨⟨"Other.give"⟩, 1, call⟩, given⟩

variable [Weight ω] [DecidableEq ω]

def listing (weighing : Weighing ω) : Run.Listing ω :=
  (Run.Listing.beginBackward (setting weighing) query).advance (setting weighing) 0 100

/-- The solver is asked for the receiver. -/
def isAsked (l : Solver.Listing ω) : Bool :=
  callAt receiver (.bottom receiver) ∈ l.calls.transitions

/-- There is a run in which the receiver is asked for in vain. -/
theorem exists_untouched {weighing : Weighing ω}
    (h : ((listing weighing).solver? ⟨1⟩).any isAsked = true)
    (hscope : ∀ r, Run.Reachable (setting weighing) r → r.RespectsScope scope) :
    ∃ r s, Run.Reachable (setting weighing) r ∧ r.RespectsScope scope ∧
      r.solver? ⟨1⟩ = some s ∧ s.seed = receiver ∧ s.IsUntouched := by
  obtain ⟨r, hr, hlisted⟩ := Run.exists_listed (setting weighing) (.backward query) 100
  obtain ⟨s, l, hs, hl, hasked⟩ := hlisted.exists_solver h
  have hmentions : s.Mentions receiver := by
    refine .inl ⟨.bottom receiver, ?_⟩
    rw [hl.calls.transitions]
    exact of_decide_eq_true hasked
  obtain ⟨hseed, huntouched⟩ := hscope _ hr ⟨1⟩ s hs receiver hmentions rfl
  exact ⟨_, s, hr, hscope _ hr, hs, hseed.symm, huntouched⟩

theorem asked_reach : ((listing .reach).solver? ⟨1⟩).any isAsked = true := by decide +kernel

theorem asked_trail : ((listing .trail).solver? ⟨1⟩).any isAsked = true := by decide +kernel

end Fence

/-- The receiver of a call in an excluded method is asked for, and nothing is done about it. -/
theorem Run.respectsScope_fence : Fence.description.resolve = .ok Fence.program ∧
    (∃ r s, Reachable (Fence.setting .reach) r ∧ r.RespectsScope Fence.scope ∧
      r.solver? ⟨1⟩ = some s ∧ s.seed = Fence.receiver ∧ s.IsUntouched) ∧
    ∃ r s, Reachable (Fence.setting .trail) r ∧ r.RespectsScope Fence.scope ∧
      r.solver? ⟨1⟩ = some s ∧ s.seed = Fence.receiver ∧ s.IsUntouched := by
  obtain ⟨hreach, htrail⟩ :=
    respectsScope_of_reachable Fence.resolve_description Fence.scope Fence.options
  exact ⟨Fence.resolve_description, Fence.exists_untouched Fence.asked_reach hreach,
    Fence.exists_untouched Fence.asked_trail htrail⟩

end DemandAlias
