import DemandAlias.Proofs.Program.Vocabulary
import DemandAlias.Proofs.Run.Bound

/-!
# What a run can speak of

All states, rules, requests and messages of a run are made of the statements, locals and
fields of a vocabulary and of the numbers of solvers (`Vocabulary.bound`). Solvers that
follow objects forward have the states they come to by themselves: locals, frames and their
bottom. Those that search backward also have copies of such states, but not copies of
copies, since only solvers that go forward are asked for their transitions. Stacks of
fields are made of the nodes at which fields were pushed, going forward only fields that are
written, and the empty label only leads to the bottom. The frames that requests and messages
carry along are at most `maxFrames`.

The bound is closed (`Vocabulary.closed_bound`), so runs stay within it.
-/

namespace DemandAlias

variable {ω : Type} {requester : SolverId} {t : CallTransition} {site : Statement} {n : Node}
  {c : Setting ω}

/-! ### Naming -/

/-- The solver with this number goes in this direction. -/
def Naming.Goes (N : Naming) (direction : Direction) (id : SolverId) : Prop :=
  ∃ q, q.direction = direction ∧ N id q

theorem Naming.Goes.mono {N N' : Naming} (hN : N.Le N') {direction : Direction} {id : SolverId}
    (h : N.Goes direction id) : N'.Goes direction id :=
  h.imp fun _ => .imp_right (hN ·)

/-! ### Edges -/

/-- The method that a call is dispatched to is defined. -/
theorem Program.defines_of_dispatch {p : Program} {className : ClassName} {name : String}
    {m : MethodName} (h : p.dispatch className name = some m) : p.defines m = true := by
  have hwithin : ∀ n (className : ClassName),
      p.dispatchWithin name n className = some m → p.defines m = true := by
    intro n
    induction n with
    | zero => exact fun _ h => by cases h
    | succ n ih =>
      intro className h
      rw [dispatchWithin] at h
      split at h
      · next hdefined =>
        cases h
        exact hdefined
      · obtain ⟨superclass, -, h⟩ := bind_eq_some_iff.1 h
        exact ih superclass h
  exact hwithin _ _ h

/-- The edge leads from a call site of the program to a method that it defines. -/
def Program.HasEdge (p : Program) (e : CallEdge) : Prop :=
  e.site ∈ p.statements ∧ p.defines e.callee = true

theorem Program.Spans.defines {p p' : Program} (h : p.Spans p') {m : MethodName}
    (hm : p'.defines m = true) : p.defines m = true :=
  any_eq_true.2 ((any_eq_true.1 hm).imp fun _ => .imp_left (h.methods ·))

/-- At most `k` call sites of the program. -/
def Program.HasFrames (p : Program) (k : Nat) (frames : List Statement) : Prop :=
  (∀ site ∈ frames, site ∈ p.statements) ∧ frames.length ≤ k

/-- The field is one that the solver of `q` may push: going forward, one that is written. -/
def Program.Pushes (p : Program) (q : Query) (f : Field) : Prop :=
  f ∈ p.fields ∧ (q.direction = .forward → p.Writes f)

namespace Vocabulary

variable {p p' : Program} (V : Vocabulary p)
variable {state : State} {g : CallGraph} {label : Field}

/-! ### States -/

/-- A state of calls that a solver comes to by itself. -/
inductive OwnState : State → Prop
  | single {v : Local} (hv : v ∈ V.locals) : OwnState (.single v)
  | frame {n : Node} (hn : V.HasNode n) : OwnState (Solver.frameOf n)

/-- A state of calls of the solver of `q`. -/
inductive CallState (N : Naming) (q : Query) : State → Prop
  | own {state : State} (h : V.OwnState state) : CallState N q state
  | bottom : CallState N q (.bottom q.node)
  | copy {state : State} {id : SolverId} (hq : q.direction = .backward)
      (hid : N.Goes .forward id) (h : V.OwnState state) :
      CallState N q (.generated state (.imported id))

/-- What is below a field that was pushed. -/
inductive Below : State → Prop
  | intro {n : Node} {f : Field} (hn : V.HasNode n) (hf : f ∈ p.fields) : Below (Solver.below n f)

/-- A state that transitions of fields lead out of. -/
inductive FieldSource : State → Prop
  | located {n : Node} (hn : V.HasNode n) : FieldSource (.located n)
  | below {state : State} (h : V.Below state) : FieldSource state

/-- A state of fields of the solver of `q`. -/
inductive FieldState (q : Query) : State → Prop
  | source {state : State} (h : V.FieldSource state) : FieldState q state
  | bottom : FieldState q (.bottom q.node)

/-- Where a label leads: the empty one to the bottom, and a field to what is below it. -/
inductive LeadsTo (q : Query) : Field → State → Prop
  | bottom : LeadsTo q .epsilon (.bottom q.node)
  | below {n : Node} {f : Field} (hf : p.Pushes q f) (hn : V.HasNode n) :
    LeadsTo q f (Solver.below n f)

/-- The topic is about a state of calls of the solver of `q`. -/
def CallTopic (N : Naming) (q : Query) : Topic State Statement → Prop
  | .all => True
  | .out state | .into state => V.CallState N q state
  | .outBy state label => V.CallState N q state ∧ label ∈ p.statements

/-- The topic is about a state of fields of the solver of `q`. -/
def FieldTopic (q : Query) : Topic State Field → Prop
  | .all => True
  | .out state | .into state | .outBy state _ => V.FieldState q state

/-! ### Requests, rules and messages -/

/-- A solver that goes forward writes to the field at the store. -/
def Writes (N : Naming) (requester : SolverId) (store : Node) (field : Field) : Prop :=
  N.Goes .forward requester ∧ V.HasNode store ∧ field ∈ p.fields

/-- The solver of `q` goes forward and is asked by one that goes backward. -/
def Asked (N : Naming) (q : Query) (requester : SolverId) : Prop :=
  q.direction = .forward ∧ N.Goes .backward requester

def HasCallRequest (N : Naming) (q : Query) : CallRequest → Prop
  | .callerFrames requester store field frames =>
    V.Writes N requester store field ∧ p.HasFrames (Solver.maxFrames - 1) frames
  | .returnSites requester store field frames =>
    V.Writes N requester store field ∧ p.HasFrames Solver.maxFrames frames
  | .storeContext requester value => Asked N q requester ∧ V.HasNode value
  | .copy requester => Asked N q requester

def HasFieldRequest (N : Naming) (q : Query) : FieldRequest → Prop
  | .allocation node => q.direction = .backward ∧ V.HasNode node
  | .aliasesAt requester store base field => V.Writes N requester store field ∧ base ∈ V.locals
  | .returnAlias requester store field frames =>
    V.Writes N requester store field ∧ p.HasFrames Solver.maxFrames frames
  | .storesOf requester field continuation =>
    Asked N q requester ∧ field ∈ p.fields ∧ V.Below continuation

def HasCallRule {ω : Type} (N : Naming) (q : Query) : CallRule ω → Prop
  | .reach => True
  | .step _ target | .popMatch target _ => V.HasNode target
  | .push _ target site | .pop _ target site => V.HasNode target ∧ site ∈ p.statements
  | .unwind target frames => V.HasNode target ∧ p.HasFrames Solver.maxFrames frames
  | .request r => V.HasCallRequest N q r

def HasFieldRule (N : Naming) (q : Query) : FieldRule → Prop
  | .reach => True
  | .step target | .popMatch target => V.HasNode target
  | .push target field => V.HasNode target ∧ p.Pushes q field
  | .pop target field => V.HasNode target ∧ field ∈ p.fields
  | .request r => V.HasFieldRequest N q r

/-- The calls whose callees are wanted are calls of the program. -/
def HasCrossing (_ : Vocabulary p) : Crossing → Prop
  | .into site => site ∈ p.statements
  | .outOf _ => True

/-- The transition is between states of calls of the solver of `q`. -/
def HasCall (N : Naming) (q : Query) (t : CallTransition) : Prop :=
  V.CallState N q t.source ∧ t.label ∈ p.statements ∧ V.CallState N q t.target

/-- The transition of the solver of `q` leads to where its label leads. -/
def HasField (q : Query) (t : FieldTransition) : Prop :=
  V.FieldSource t.source ∧ V.LeadsTo q t.label t.target

def HasMessage (N : Naming) (q : Query) : Message → Prop
  | .wanted x => V.HasCrossing x
  | .fieldWrite store base field =>
    q.direction = .forward ∧ V.HasNode store ∧ base ∈ V.locals ∧ field ∈ p.fields
  | .allocation node label continuation =>
    q.direction = .backward ∧ V.HasNode node ∧ V.LeadsTo q label continuation
  | .aliasAt requester store field other frames =>
    V.Writes N requester store field ∧ V.HasNode other ∧ p.HasFrames Solver.maxFrames frames
  | .storeFound requester continuation store value =>
    Asked N q requester ∧ V.Below continuation ∧ V.HasNode store ∧ value ∈ V.locals
  | .storeContext requester value context =>
    Asked N q requester ∧ V.HasNode value ∧ V.CallState N q context
  | .copied requester t => Asked N q requester ∧ V.HasCall N q t
  | .unreachable _ => True

/-- What the solver of `q` can speak of. -/
def solverBound {ω : Type} (N : Naming) (q : Query) : Bound ω where
  call := V.HasCall N q
  field := V.HasField q
  callRule topic rule := V.CallTopic N q topic ∧ V.HasCallRule N q rule
  fieldRule topic rule := V.FieldTopic q topic ∧ V.HasFieldRule N q rule
  message := V.HasMessage N q
  watcher x n := V.HasNode n ∧ V.HasCrossing x

def HasSubscriber (N : Naming) : Subscriber → Prop
  | .resolve site _ => site ∈ p.statements
  | .fieldWrite requester store base field => V.Writes N requester store field ∧ base ∈ V.locals
  | .aliases => True

/-- What a run that begins with this call graph can speak of. -/
def bound {ω : Type} (graph : CallGraph) : RunBound ω where
  graph
  query q := V.HasNode q.node
  solver N q := V.solverBound N q
  edge _ e := p.HasEdge e
  allocation _ a := V.HasNode a.node
  subscriber N _ k := V.HasSubscriber N k

variable {V} {N N' : Naming} {q : Query}

/-! ### More solvers -/

section Mono

variable (hN : N.Le N')

include hN

theorem CallState.mono {state : State} (h : V.CallState N q state) : V.CallState N' q state := by
  cases h with
  | own h => exact .own h
  | bottom => exact .bottom
  | copy hq hid h => exact .copy hq (hid.mono hN) h

theorem HasCall.mono (h : V.HasCall N q t) : V.HasCall N' q t := ⟨h.1.mono hN, h.2.1, h.2.2.mono hN⟩

theorem CallTopic.mono {topic : Topic State Statement} (h : V.CallTopic N q topic) :
    V.CallTopic N' q topic := by
  cases topic with
  | all => trivial
  | out _ | into _ => exact CallState.mono hN h
  | outBy => exact h.imp_left (CallState.mono hN)

theorem Writes.mono {store : Node} {field : Field} (h : V.Writes N requester store field) :
    V.Writes N' requester store field :=
  h.imp_left (Naming.Goes.mono hN)

theorem Asked.mono (h : Asked N q requester) : Asked N' q requester :=
  h.imp_right (Naming.Goes.mono hN)

theorem HasCallRule.mono {rule : CallRule ω} (h : V.HasCallRule N q rule) :
    V.HasCallRule N' q rule := by
  cases rule with
  | request r =>
    cases r with
    | callerFrames _ _ _ _ | returnSites _ _ _ _ => exact And.imp_left (Writes.mono hN) h
    | storeContext => exact And.imp_left (Asked.mono hN) h
    | copy => exact Asked.mono hN h
  | _ => exact h

theorem HasFieldRule.mono {rule : FieldRule} (h : V.HasFieldRule N q rule) :
    V.HasFieldRule N' q rule := by
  cases rule with
  | request r =>
    cases r with
    | allocation => exact h
    | aliasesAt _ _ _ _ | returnAlias _ _ _ _ => exact And.imp_left (Writes.mono hN) h
    | storesOf => exact And.imp_left (Asked.mono hN) h
  | _ => exact h

theorem HasMessage.mono {m : Message} (h : V.HasMessage N q m) : V.HasMessage N' q m := by
  cases m with
  | aliasAt => exact And.imp_left (Writes.mono hN) h
  | storeFound => exact And.imp_left (Asked.mono hN) h
  | storeContext =>
    exact And.imp (Asked.mono hN) (And.imp_right (CallState.mono hN)) h
  | copied => exact And.imp (Asked.mono hN) (HasCall.mono hN) h
  | _ => exact h

theorem solverBound_le : (V.solverBound N q : Bound ω).Le (V.solverBound N' q) where
  call h := HasCall.mono hN h
  field h := h
  callRule h := And.imp (CallTopic.mono hN) (HasCallRule.mono hN) h
  fieldRule h := h.imp_right (HasFieldRule.mono hN)
  message h := HasMessage.mono hN h
  watcher h := h

theorem HasSubscriber.mono {k : Subscriber} (h : V.HasSubscriber N k) : V.HasSubscriber N' k := by
  cases k with
  | fieldWrite => exact And.imp_left (Writes.mono hN) h
  | _ => exact h

end Mono

/-! ### Nodes -/

theorem CallState.mem_locals {v : Local} (h : V.CallState N q (.single v)) : v ∈ V.locals := by
  cases h with
  | own h =>
    generalize hstate : State.single v = state at h
    cases h with
    | single hv =>
      cases hstate
      exact hv
    | frame => cases hstate

theorem hasCall_callAt (hn : V.HasNode n) (h : V.CallState N q state) :
    V.HasCall N q (callAt n state) :=
  ⟨.own (.single hn.2), hn.1, h⟩

theorem LeadsTo.eq_or_pushes (h : V.LeadsTo q label state) :
    label = .epsilon ∧ state = .bottom q.node ∨
      p.Pushes q label ∧ ∃ n, V.HasNode n ∧ state = Solver.below n label := by
  cases h with
  | bottom => exact .inl ⟨rfl, rfl⟩
  | below hf hn => exact .inr ⟨hf, _, hn, rfl⟩

theorem LeadsTo.fieldState (h : V.LeadsTo q label state) : V.FieldState q state := by
  cases h with
  | bottom => exact .bottom
  | below hf hn => exact .source (.below ⟨hn, hf.1⟩)

/-- The node of a transition of fields is one of the vocabulary. -/
theorem hasNode_of_hasField (h : V.HasField q (fieldAt n label state)) :
    V.HasNode n := by
  obtain ⟨hsource, -⟩ := h
  generalize hstate : (fieldAt n label state).source = source at hsource
  cases hsource with
  | located hn =>
    cases hstate
    exact hn
  | below h =>
    cases h
    cases hstate

theorem hasField_fieldAt (hn : V.HasNode n) (h : V.LeadsTo q label state) :
    V.HasField q (fieldAt n label state) :=
  ⟨.located hn, h⟩

/-! ### Rules -/

section Changes

theorem allows_moveChanges (hn : V.HasNode n) {m : Move} (hm : V.HasMove m)
    (hpush : ∀ {target f}, m = .push target (.field f) → q.direction = .forward → p.Writes f) :
    ∀ x ∈ Move.changes n m, (V.solverBound N q : Bound ω).Allows x := by
  have htopic : V.CallTopic N q (.outBy (.single n.var) n.stmt) := ⟨.own (.single hn.2), hn.1⟩
  have htopic' : V.FieldTopic q (.out (.located n)) := .source (.located hn)
  refine Move.forall_changes ⟨htopic, ?_⟩ ⟨htopic', ?_⟩
  · rcases m with target | ⟨target, site | f⟩ | ⟨target, site | f⟩
    · exact hm
    · exact hm
    · exact hm.1
    · exact hm
    · exact hm.1
  · rcases m with target | ⟨target, site | f⟩ | ⟨target, site | f⟩
    · exact hm
    · exact hm.1
    · exact ⟨hm.1, hm.2, hpush rfl⟩
    · exact hm.1
    · exact hm

theorem hasFrames_append {k : Nat} {frames : List Statement} (h : p.HasFrames k frames)
    (hsite : site ∈ p.statements) : p.HasFrames (k + 1) (frames ++ [site]) := by
  refine ⟨fun site' hmem => ?_, ?_⟩
  · rcases mem_append.1 hmem with hmem | hmem
    · exact h.1 site' hmem
    · exact mem_singleton.1 hmem ▸ hsite
  · rw [length_append]
    exact Nat.add_le_add_right h.2 1

theorem allows_callRequestChanges {r : CallRequest} (hr : V.HasCallRequest N q r) {bottom : State}
    (ht : V.HasCall N q t) :
    ∀ x ∈ r.changes p' bottom t, (V.solverBound N q : Bound ω).Allows x := by
  obtain ⟨hsource, hlabel, htarget⟩ := ht
  intro x hx
  cases CallRequest.yields_of_mem hx with
  | search => exact ⟨htarget, hr⟩
  | sites => exact ⟨htarget, hr.1, hasFrames_append hr.2 hlabel⟩
  | deeper _ _ _ hfew =>
    exact ⟨htarget, hr.1, (hasFrames_append hr.2 hlabel).1, Nat.le_sub_one_of_lt hfew⟩
  | returnAlias _ _ _ _ hsingle =>
    rw [hsingle] at hsource
    exact ⟨.source (.located ⟨hlabel, hsource.mem_locals⟩), hr⟩
  | storeContext => exact ⟨hr.1, hr.2, htarget⟩
  | copied => exact ⟨hr, hsource, hlabel, htarget⟩

theorem allows_callRuleChanges [Weight ω] {bottom : State}
    {rule : CallRule ω} (hrule : V.HasCallRule N q rule) (ht : V.HasCall N q t) (w : ω) :
    ∀ x ∈ rule.changes c bottom t w, (V.solverBound N q : Bound ω).Allows x := by
  intro x hx
  have htarget := ht.2.2
  cases CallRule.yields_of_mem hx with
  | reach => trivial
  | step | popMatch => exact hasCall_callAt hrule htarget
  | leave | unwound => exact hasCall_callAt hrule.1 htarget
  | enter => exact hasCall_callAt hrule.1 (.own (.frame hrule.1))
  | frame => exact ⟨.own (.frame hrule.1), hrule.2, htarget⟩
  | pop => exact ⟨⟨htarget, hrule.2⟩, hrule.1⟩
  | unwind _ site =>
    obtain ⟨hnode, hframes, hlength⟩ := hrule
    refine ⟨⟨htarget, hframes site mem_cons_self⟩, hnode, ?_, Nat.le_of_succ_le hlength⟩
    exact fun site' hmem => hframes site' (mem_cons_of_mem _ hmem)
  | request => exact allows_callRequestChanges hrule ht x hx

theorem allows_fieldRequestChanges {r : FieldRequest} (hr : V.HasFieldRequest N q r)
    {t : FieldTransition} (ht : V.HasField q t) :
    ∀ x ∈ r.changes t, (V.solverBound N q : Bound ω).Allows x := by
  have hlocated : ∀ {n}, t.source = .located n → V.HasNode n := fun {n} hsource => by
    have hsame : fieldAt n t.label t.target = t := by rw [fieldAt, ← hsource]
    exact hasNode_of_hasField (hsame ▸ ht)
  intro x hx
  cases FieldRequest.yields_of_mem hx with
  | allocation => exact ⟨hr.1, hr.2, ht.2⟩
  | aliasAt _ _ _ _ hsource =>
    exact ⟨hr.1, hlocated hsource, fun _ hmem => (nomatch hmem), Nat.zero_le _⟩
  | returnAlias _ _ _ _ hsource => exact ⟨hr.1, hlocated hsource, hr.2⟩
  | storeFound _ _ _ hsource haction =>
    have hn := hlocated hsource
    exact ⟨hr.1, hr.2.2, hn, (mem_of_store hn.1 haction).2.1⟩

theorem allows_fieldRuleChanges {rule : FieldRule} (hrule : V.HasFieldRule N q rule)
    {t : FieldTransition} (ht : V.HasField q t) :
    ∀ x ∈ rule.changes t, (V.solverBound N q : Bound ω).Allows x := by
  intro x hx
  cases FieldRule.yields_of_mem hx with
  | reach => trivial
  | step | popMatch => exact hasField_fieldAt hrule ht.2
  | push => exact hasField_fieldAt hrule.1 (.below hrule.2 hrule.1)
  | below => exact ⟨.below ⟨hrule.1, hrule.2.1⟩, ht.2⟩
  | pop => exact ⟨ht.2.fieldState, hrule.1⟩
  | request => exact allows_fieldRequestChanges hrule ht x hx

end Changes

/-! ### Solvers -/

theorem closed_solverBound [Weight ω] (hp : p.Spans c.program)
    (hg : ∀ {x : Crossing} {e}, e ∈ x.edges g → p.HasEdge e) {s : Solver ω}
    (hdirection : s.direction = q.direction) : (V.solverBound N q).Closed c g s where
  callRules hrule _ ht w := allows_callRuleChanges hrule.2 ht w
  fieldRules hrule _ ht := allows_fieldRuleChanges hrule.2 ht
  nodes {n} _ _ _ _ hfield _ := by
    have hn := hasNode_of_hasField hfield
    refine Solver.forall_nodeChanges (fun m hm => ?_) (fun hforward haction => ?_) fun hback _ => ?_
    · refine allows_moveChanges hn (hasMove_of_flow hp hn hm) (fun heq hforward => ?_)
      rw [hdirection, hforward] at hm
      obtain ⟨base, haction⟩ := Flow.Forward.action_of_push (heq ▸ hm)
      exact ⟨n.stmt, hn.1, base, n.var, haction⟩
    · have hstore := mem_of_store (V := V) hn.1 haction
      exact ⟨hdirection.symm.trans hforward, hn, hstore.1, hstore.2.2⟩
    · exact ⟨.source (.located hn), hdirection.symm.trans hback, hn⟩
  crossings {n} _ _ _ _ hfield _ x hx := by
    have hn := hasNode_of_hasField hfield
    refine ⟨hn, ?_⟩
    rw [Solver.flowAt_eq] at hx
    rcases mem_append.1 hx with hx | hx
    · obtain ⟨site, hsite, rfl⟩ := mem_map.1 hx
      rcases (Program.isCall_of_mem_callSites hsite).2 with rfl | hmem
      · exact hn.1
      · exact hp.statements (hp.isLaidOut.mem_statements_of_mem_predecessors hmem)
    · obtain ⟨m, -, rfl⟩ := mem_map.1 hx
      trivial
  edges hwatcher he y hy := by
    obtain ⟨m, hm, hy⟩ := mem_flatMap.1 hy
    exact allows_moveChanges hwatcher.1 (hasMove_of_crossing hp (hg he).1 hm)
      (fun heq => absurd (heq ▸ hm) not_field_of_crossing) y hy
  wanted hwatcher := hwatcher.2
  unreachable _ _ _ _ := trivial

/-! ### Messages -/

theorem links (hsite : site ∈ p.statements) {m : MethodName} (hm : p.defines m = true) :
    (V.bound g : RunBound ω).Links site m :=
  .inr ⟨⟨hsite, hm⟩, ⟨hsite, hm⟩⟩

theorem resolves (hp : p.Spans p') (hsite : site ∈ p.statements) :
    (V.bound g : RunBound ω).Resolves p' N site := by
  unfold RunBound.Resolves
  split
  · exact fun hm => links hsite (hp.defines hm)
  · next receiver name args hcall =>
    have hreceiver : receiver ∈ V.locals := mem_locals_of_statement hsite
      (Statement.locals_of_call? hcall (Call.mem_locals_of_receiver? rfl))
    exact ⟨⟨hsite, hreceiver⟩, hsite⟩
  · trivial

/-- The states that a solver that goes backward has for those of one that goes forward. -/
theorem CallState.copyOf {sender : SolverId} (hsender : N sender q) (hq : q.direction = .forward)
    {q' : Query} (hq' : q'.direction = .backward) (h : V.CallState N q state) :
    V.CallState N q' (q.copyOf sender q' state) := by
  unfold Query.copyOf
  split
  · exact .bottom
  · next hne =>
    cases h with
    | own h => exact .copy hq' ⟨q, hq, hsender⟩ h
    | bottom => exact absurd rfl hne
    | copy hcopy =>
      rw [hq] at hcopy
      cases hcopy

theorem copies (hasked : Asked N q requester) (h : V.CallState N q state) :
    (V.bound g : RunBound ω).Copies N q requester state :=
  .inr ⟨h, hasked⟩

theorem passes (hp : p.Spans c.program) (hN : (V.bound g : RunBound ω).Admits N)
    {sender : SolverId} (hsender : N sender q) {m : Message} (hm : V.HasMessage N q m)
    {size : Nat} (hlegit : m.Legit size) : (V.bound g).Passes c N sender q m := by
  have hgoes : ∀ {id q' direction}, N.Goes direction id → N id q' → q'.direction = direction :=
    fun ⟨q₁, hq₁, hid⟩ hq' => hN.inj hid hq' ▸ hq₁
  cases m with
  | wanted x =>
    intro _ site hsite
    cases x with
    | into =>
      rw [mem_singleton.1 hsite]
      exact resolves hp hm
    | outOf => exact resolves hp (hp.statements (mem_filter.1 hsite).1)
  | fieldWrite =>
    obtain ⟨hq, hstore, hbase, hfield⟩ := hm
    exact ⟨⟨hstore.1, hbase⟩, ⟨⟨q, hq, hsender⟩, hstore, hfield⟩, hbase⟩
  | allocation =>
    obtain ⟨hq, hnode, hleads⟩ := hm
    refine fun _ => ⟨fun _ => hnode, fun hne => ⟨hnode, trivial, ?_⟩⟩
    cases hleads with
    | bottom => exact absurd rfl hne
    | below hlabel hn => exact ⟨⟨rfl, q, hq, hsender⟩, hlabel.1, hn, hlabel.1⟩
  | aliasAt _ store field other frames =>
    obtain ⟨⟨-, hstore, hfield⟩, hother, hframes⟩ := hm
    obtain ⟨-, base, haction⟩ := hlegit
    have hwrites : p.Writes field := ⟨store.stmt, hstore.1, base, store.var, haction⟩
    intro q' _
    refine Run.forall_aliasChanges (fun _ t ht => ?_) ?_
    · have hmove : V.HasMove (.push ⟨t, other.var⟩ (.field field)) :=
        ⟨⟨hp.statements (hp.isLaidOut.mem_statements_of_mem_successors ht), hother.2⟩, hfield⟩
      exact allows_moveChanges hstore hmove fun heq _ => by cases heq; exact hwrites
    · rintro frame frames rfl
      exact ⟨⟨.source (.located hstore), hother, hfield, fun _ => hwrites⟩,
        ⟨.own (.single hstore.2), hstore.1⟩, hother, hframes⟩
  | storeFound =>
    obtain ⟨hasked, hbelow, hstore, hvalue⟩ := hm
    refine ⟨fun q' _ => ⟨.source (.below hbelow), hstore.1, hvalue⟩,
      ⟨.own (.single hstore.2), hstore.1⟩, hasked, hstore.1, hvalue⟩
  | storeContext =>
    obtain ⟨hasked, hvalue, hcontext⟩ := hm
    refine ⟨copies hasked hcontext, fun q' hq' => hasCall_callAt hvalue ?_⟩
    exact hcontext.copyOf hsender hasked.1 (hgoes hasked.2 hq')
  | copied =>
    obtain ⟨hasked, hsource, hlabel, htarget⟩ := hm
    refine ⟨copies hasked hsource, copies hasked htarget, fun q' hq' => ?_⟩
    have hbackward := hgoes hasked.2 hq'
    exact ⟨hsource.copyOf hsender hasked.1 hbackward, hlabel,
      htarget.copyOf hsender hasked.1 hbackward⟩
  | unreachable => trivial

theorem notifies (hp : p.Spans p') {k : Subscriber} (hk : V.HasSubscriber N k) {a : ForwardQuery}
    (ha : V.HasNode a.node) : (V.bound g : RunBound ω).Notifies p' N a k := by
  cases k with
  | resolve =>
    intro m hm
    obtain ⟨className, -, hm⟩ := bind_eq_some_iff.1 hm
    exact links hk (hp.defines (Program.defines_of_dispatch hm))
  | fieldWrite =>
    obtain ⟨hwrites, hbase⟩ := hk
    refine ⟨ha, RunBound.forall_watchChanges ⟨trivial, hwrites, hbase⟩ ?_⟩
    exact ⟨⟨.own (.single hbase), hwrites.2.1.1⟩, hwrites,
      fun _ hmem => (nomatch hmem), Nat.zero_le _⟩
  | aliases => exact ha

/-! ### Runs -/

/-- A run only speaks of what it can speak of. -/
theorem closed_bound [Weight ω] (hp : p.Spans c.program) (g : CallGraph) :
    (V.bound g).Closed c where
  solver_mono hN _ := solverBound_le hN
  subscriber_mono hN _ _ hk := HasSubscriber.mono hN hk
  start hq := ⟨hasCall_callAt hq .bottom, hasField_fieldAt hq .bottom, ⟨trivial, trivial⟩,
    trivial, trivial⟩
  closed _ _ _ _ hg hdirection _ := closed_solverBound hp hg hdirection
  message hN hsender hm hlegit := passes hp hN hsender hm hlegit
  notice _ _ hk _ ha := notifies hp hk ha

end Vocabulary

end DemandAlias
