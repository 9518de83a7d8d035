import DemandAlias.Proofs.Run.Bound
import DemandAlias.Proofs.Search.Justified

/-!
# A run finds nothing else

In a program without calls, all that the solvers of a run have is justified by the search
each of them is for, at any time: what one solver concludes from another one's messages is
what its own search concludes from the other search. This is a bound of the run
(`Search.bound`), which is closed (`Search.closed_bound`). So an allocation that is found is
one that the search comes to.
-/

namespace DemandAlias

/-- The solver with this number searches in this direction and from this seed. -/
def Naming.Searches (N : Naming) (id : SolverId) (direction : Direction) (seed : Node) : Prop :=
  ∃ q, N id q ∧ q.direction = direction ∧ q.node = seed

namespace Search

/-- What is done with the allocations that the solver of `q` finds is justified. -/
inductive Awaits (p : Program) (N : Naming) (q : Query) : Subscriber → Prop
  | fieldWrite {requester : SolverId} {seed store : Node} {base : Local} {field : Field}
      (hrequester : N.Searches requester .forward seed) (hmem : store.stmt ∈ p.statements)
      (hstore : store.stmt.action = .store base field store.var)
      (hq : q.node = ⟨store.stmt, base⟩) :
    Awaits p N q (.fieldWrite requester store base field)
  | aliases : Awaits p N q .aliases

/-- All that the solvers of the run have is justified, and there are no edges of the call graph. -/
def bound (ω : Type) (p : Program) (graph : CallGraph) : RunBound ω where
  graph
  query q := q.node.stmt ∈ p.statements
  solver N q := justified p N.Searches q.direction q.node ω
  edge _ _ := False
  allocation q a := a.node.stmt ∈ p.statements ∧ Finds p .backward q.node ⟨a.node, []⟩
  subscriber := Awaits p

variable {ω : Type} {p : Program} {N N' : Naming} {q : Query} {graph : CallGraph}

/-! ### More solvers -/

theorem Awaits.mono {k : Subscriber} (hN : N.Le N') (h : Awaits p N q k) : Awaits p N' q k := by
  cases h with
  | fieldWrite hrequester hmem hstore hq =>
    obtain ⟨q', hq', hsearches⟩ := hrequester
    exact .fieldWrite ⟨q', hN hq', hsearches⟩ hmem hstore hq
  | aliases => exact .aliases

/-- What is justified stays so when there are more solvers. -/
theorem justified_le {who who' : SolverId → Direction → Node → Prop} {direction : Direction}
    {seed : Node} (hwho : ∀ {id direction seed}, who id direction seed → who' id direction seed) :
    (justified p who direction seed ω).Le (justified p who' direction seed ω) where
  call h := h
  field h := h
  callRule h := by
    cases h with
    | reach => exact .reach
    | step n m => exact .step n m
    | storeContext hw value => exact .storeContext (hwho hw) value
    | callerFrames requester store field => exact .callerFrames requester store field
  fieldRule h := by
    cases h with
    | reach => exact .reach
    | move h => exact .move h
    | popMatch h => exact .popMatch h
    | allocation hdirection hn => exact .allocation hdirection hn
    | aliasesAt hdirection hw hmem hstore hseed hbase =>
      exact .aliasesAt hdirection (hwho hw) hmem hstore hseed hbase
    | storesOf hdirection hw hseed hq hfield =>
      exact .storesOf hdirection (hwho hw) hseed hq hfield
  message h := by
    cases h with
    | wanted name => exact .wanted name
    | fieldWrite hdirection hmem hstore => exact .fieldWrite hdirection hmem hstore
    | allocation hdirection h => exact .allocation hdirection h
    | aliasAt hw h => exact .aliasAt (hwho hw) h
    | storeFound hw h => exact .storeFound (hwho hw) h
    | storeContext hw value => exact .storeContext (hwho hw) value
    | unreachable n => exact .unreachable n
  watcher h := h

/-! ### Messages -/

/-- What a number is known to search for is what its query asks. -/
theorem eq_of_searches (hN : (bound ω p graph).Admits N) {id : SolverId} {direction : Direction}
    {seed : Node} (h : N.Searches id direction seed) (hq : N id q) :
    q.direction = direction ∧ q.node = seed := by
  obtain ⟨q', hq', hsearches⟩ := h
  cases hN.inj hq hq'
  exact hsearches

/-- What is told is justified, and so is what passing it on brings about. -/
theorem passes_of_told {c : Setting ω} (hprogram : c.program = p)
    (hcalls : ∀ s ∈ p.statements, s.isCall = false) (hN : (bound ω p graph).Admits N)
    {sender : SolverId} (hsender : N sender q) {m : Message}
    (hm : Told p N.Searches q.direction q.node m) :
    (bound ω p graph).Passes c N sender q m := by
  subst hprogram
  cases hm with
  | wanted =>
    -- Without calls there are no callers to look for.
    intro _ site hsite
    obtain ⟨hmem, hname⟩ := mem_filter.1 hsite
    have hnone : site.call? = none := by
      simpa [Statement.isCall, Option.isSome_eq_false_iff] using hcalls site hmem
    rw [hnone] at hname
    cases hname
  | fieldWrite hdirection hmem hstore =>
    exact ⟨hmem, .fieldWrite ⟨q, hsender, hdirection, rfl⟩ hmem hstore rfl⟩
  | allocation hdirection hstands =>
    rw [hdirection] at hstands
    refine fun hallocates => ⟨fun hlabel => ?_, fun hlabel => ?_⟩
    · cases hstands with
      | bottom hmem hfinds => exact ⟨hmem, hfinds⟩
      | above _ hf => exact absurd hlabel hf
    · exact ⟨hstands.mem_statements,
        .storesOf rfl ⟨q, hsender, hdirection, rfl⟩ hallocates hstands hlabel⟩
  | aliasAt hwho hpasses =>
    intro q' hq' x hx
    obtain ⟨hdirection, hseed⟩ := eq_of_searches hN hwho hq'
    obtain ⟨t, ht, hx⟩ := mem_flatMap.1 hx
    have hmove := hpasses t ht
    rw [← hdirection, ← hseed] at hmove
    exact allows_moveChanges hmove x hx
  | storeFound hwho hpops =>
    refine ⟨fun q' hq' => ?_, .storeContext hwho _⟩
    obtain ⟨hdirection, hseed⟩ := eq_of_searches hN hwho hq'
    rw [← hdirection, ← hseed] at hpops
    exact .popMatch hpops
  | storeContext _ value =>
    -- The calling context of a store is the outermost one, as it is for who asks.
    refine ⟨.inl rfl, fun q' _ => ⟨value, ?_⟩⟩
    rw [Query.copyOf, if_pos rfl]
  | unreachable => trivial

/-- Telling a subscriber of an allocation is justified. -/
theorem notifies_of_awaits {k : Subscriber} (hk : Awaits p N q k) {a : ForwardQuery}
    (hmem : a.node.stmt ∈ p.statements) (hfinds : Finds p .backward q.node ⟨a.node, []⟩) :
    (bound ω p graph).Notifies p N a k := by
  cases hk with
  | fieldWrite hrequester hstmt hstore hq =>
    rw [hq] at hfinds
    exact ⟨hmem, RunBound.forall_watchChanges
      (.aliasesAt rfl hrequester hstmt hstore a.allocates hfinds) (.callerFrames ..)⟩
  | aliases => exact hmem

/-- Whatever a run does in a program without calls, all that its solvers have is justified. -/
theorem closed_bound [Weight ω] {c : Setting ω} (hprogram : c.program = p) (hp : p.IsLaidOut)
    (hnamed : p.FieldsNamed) (hcalls : ∀ s ∈ p.statements, s.isCall = false) :
    (bound ω p graph).Closed c where
  solver_mono hN _ := justified_le fun ⟨q, hq, hsearches⟩ => ⟨q, hN hq, hsearches⟩
  subscriber_mono hN _ _ hk := hk.mono hN
  start hq := ⟨⟨_, rfl⟩, .inl ⟨_, _, _, rfl, .bottom hq .refl⟩, .reach, .reach⟩
  message hN hsender hm _ := passes_of_told hprogram hcalls hN hsender hm
  notice _ _ hk _ ha := by
    rw [hprogram]
    exact notifies_of_awaits hk ha.1 ha.2
  closed {N q} _ _ {g s} hg hdirection hseed := by
    have hnone : ∀ x : Crossing, x.edges g = [] :=
      fun _ => List.eq_nil_iff_forall_not_mem.2 fun _ he => hg he
    have hclosed : (justified p N.Searches s.direction s.seed ω).Closed c g s :=
      closed_justified hp hnamed hprogram hcalls hnone
    rwa [hdirection, hseed] at hclosed

end Search

end DemandAlias
