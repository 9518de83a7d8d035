import DemandAlias.Proofs.Program.Reversal
import DemandAlias.Proofs.Run.Vocabulary
import DemandAlias.Proofs.Termination.Progress
import DemandAlias.Proofs.Termination.Rank

/-!
# How much a run can find

What a run can speak of is finite: states, transitions, requests and registrations are made
of a finite vocabulary and of the numbers of solvers, and there are no more solvers than
there are queries. So the facts that a run has found never exceed a number that depends on
the program and the query only (`Vocabulary.exists_facts_le`).
-/

namespace DemandAlias

open Std

variable {g : CallGraph} {p : Program}

/-! ### Counting -/

section

variable {α : Type} {S : Set α} (hS : S.Finite)
include hS

theorem length_le_ncard {as : List α} (hnodup : as.Nodup) (h : ∀ a ∈ as, a ∈ S) :
    as.length ≤ S.ncard := by
  classical
  rw [Set.ncard_eq_toFinset_card S hS, ← List.toFinset_card_of_nodup hnodup]
  refine Finset.card_le_card fun a ha => ?_
  exact hS.mem_toFinset.2 (h a (List.mem_toFinset.1 ha))

theorem size_hashMap_le {β : Type} [BEq α] [Hashable α] [LawfulBEq α] [LawfulHashable α]
    {m : HashMap α β} (h : ∀ a, m[a]?.isSome = true → a ∈ S) : m.size ≤ S.ncard := by
  rw [← HashMap.length_keys]
  refine length_le_ncard hS HashMap.nodup_keys fun a ha => h a ?_
  exact HashMap.mem_iff_isSome_getElem?.1 (HashMap.mem_keys.1 ha)

theorem size_hashSet_le [BEq α] [Hashable α] [LawfulBEq α] [LawfulHashable α] {m : HashSet α}
    (h : ∀ a ∈ m, a ∈ S) : m.size ≤ S.ncard := by
  rw [← HashSet.length_toList]
  refine length_le_ncard hS ?_ fun a ha => h a (HashSet.mem_toList.1 ha)
  exact HashSet.distinct_toList.imp fun hne heq => by simp [heq] at hne

end

/-! ### Call graphs -/

namespace CallGraph

/-- The size of the call graph is the number of its edges. -/
def Counted (g : CallGraph) : Prop := ∃ es : List CallEdge, g.ListedBy es ∧ es.Nodup

theorem Counted.addEdge (h : g.Counted) (site : Statement) (m : MethodName) :
    (g.addEdge site m).Counted := by
  obtain ⟨es, hes, hnodup⟩ := h
  refine ⟨_, hes.addEdge site m, ?_⟩
  unfold addNew
  split
  · exact hnodup
  · next hnew =>
    refine List.nodup_append.2 ⟨hnodup, List.nodup_singleton _, fun e he e' he' heq => ?_⟩
    rw [heq, mem_singleton.1 he'] at he
    exact hnew he

end CallGraph

/-- A call graph that an analysis of the program can come to. -/
structure Program.Builds (p : Program) (g : CallGraph) : Prop where
  counted : g.Counted
  edges : ∀ {x : Crossing} {e}, e ∈ x.edges g → p.HasEdge e

namespace Program.Builds

theorem empty (p : Program) : p.Builds .empty where
  counted := ⟨[], CallGraph.listedBy_empty, nodup_nil⟩
  edges {x e} he := by
    rw [CallGraph.listedBy_empty.edges] at he
    cases x <;> cases he

theorem mono (h : p.Builds g) {p' : Program} (hp : p'.Spans p) : p'.Builds g where
  counted := h.counted
  edges he := (h.edges he).imp (hp.statements ·) hp.defines

theorem addEdge (h : p.Builds g) {site : Statement} (hsite : site ∈ p.statements) {m : MethodName}
    (hm : p.defines m = true) :
    p.Builds (g.addEdge site m) where
  counted := h.counted.addEdge site m
  edges {x e} he := by
    rcases Run.mem_edges_addEdge he with he | ⟨-, rfl, -⟩
    · exact h.edges he
    · exact ⟨hsite, hm⟩

theorem classHierarchy (p : Program) : p.Builds (.classHierarchy p) := by
  unfold CallGraph.classHierarchy
  refine List.foldlRecOn (motive := p.Builds) _ _ (empty p) fun g hg site hsite => ?_
  have hstmt : site ∈ p.statements := (mem_filter.1 hsite).1
  cases site.call? with
  | none => exact hg
  | some =>
    refine List.foldlRecOn (motive := p.Builds) _ _ hg fun g hg m hm => hg.addEdge hstmt ?_
    unfold CallGraph.possibleCallees at hm
    split at hm
    · obtain ⟨hdefines, hm⟩ := List.mem_ite_nil_right.1 hm
      exact mem_singleton.1 hm ▸ hdefines
    · obtain ⟨className, -, hm⟩ := mem_filterMap.1 hm
      exact defines_of_dispatch hm

/-- The graph has no more edges than there are possible ones. -/
theorem size_le (h : p.Builds g) (hfinite : {e | p.HasEdge e}.Finite) :
    g.size ≤ {e | p.HasEdge e}.ncard := by
  obtain ⟨es, hes, hnodup⟩ := h.counted
  rw [hes.size]
  refine length_le_ncard hfinite hnodup fun e he => h.edges (x := .into e.site) ?_
  exact CallGraph.Grows.mem_edges_into.2 (List.contains_iff_mem.1 ((hes.hasEdge e.site e.callee).2 he))

end Program.Builds

/-! ### The vocabulary -/

namespace Vocabulary

variable {p : Program} (V : Vocabulary p)

theorem finite_statements (p : Program) : {s | s ∈ p.statements}.Finite := List.finite_toSet _

theorem finite_fields (p : Program) : {f | f ∈ p.fields}.Finite := List.finite_toSet _

theorem finite_locals : {v | v ∈ V.locals}.Finite := List.finite_toSet _

theorem finite_nodes : {n | V.HasNode n}.Finite := by
  refine (Set.Finite.image2 Node.mk (finite_statements p) V.finite_locals).subset ?_
  rintro ⟨stmt, var⟩ ⟨hstmt, hvar⟩
  exact ⟨stmt, hstmt, var, hvar, rfl⟩

theorem finite_queries : {q : Query | V.HasNode q.node}.Finite := by
  have hdirections : ({.forward, .backward} : Set Direction).Finite := Set.toFinite _
  refine Set.Finite.of_finite_image
    ((V.finite_nodes.prod hdirections).subset (?_ : Set.image (fun q => (q.node, q.direction)) _ ⊆ _)) ?_
  · rintro _ ⟨q, hq, rfl⟩
    refine ⟨hq, ?_⟩
    cases q with
    | forward => exact .inl rfl
    | backward => exact .inr rfl
  · intro q _ q' _ heq
    obtain ⟨hnode, hdirection⟩ := Prod.mk.inj heq
    exact Query.ext hnode hdirection

theorem finite_edges (p : Program) : {e | p.HasEdge e}.Finite := by
  have hmethods : {m | p.defines m = true}.Finite := by
    refine (List.finite_toSet (p.methods.map Method.name)).subset fun m hm => ?_
    obtain ⟨method, hmethod, hname⟩ := any_eq_true.1 hm
    exact mem_map.2 ⟨method, hmethod, eq_of_beq hname⟩
  refine (Set.Finite.image2 CallEdge.mk (finite_statements p) hmethods).subset ?_
  rintro ⟨site, callee⟩ ⟨hsite, hcallee⟩
  exact ⟨site, hsite, callee, hcallee, rfl⟩

theorem finite_frames (p : Program) (k : Nat) : {frames | p.HasFrames k frames}.Finite :=
  finite_lists (finite_statements p) k

/-! ### States and requests -/

section Named

variable {N : Naming} (hN : {id | ∃ q, N id q}.Finite) (q : Query)

theorem finite_ownStates : {state | V.OwnState state}.Finite := by
  refine ((V.finite_locals.image State.single).union
    (V.finite_nodes.image Solver.frameOf)).subset ?_
  rintro state (⟨hv⟩ | ⟨hn⟩)
  · exact .inl ⟨_, hv, rfl⟩
  · exact .inr ⟨_, hn, rfl⟩

theorem finite_belows : {state | V.Below state}.Finite := by
  refine (Set.Finite.image2 Solver.below V.finite_nodes (finite_fields p)).subset ?_
  rintro state ⟨hn, hf⟩
  exact ⟨_, hn, _, hf, rfl⟩

theorem finite_fieldStates : {state | V.FieldState q state}.Finite := by
  refine (((V.finite_nodes.image State.located).union V.finite_belows).insert
    (.bottom q.node)).subset ?_
  rintro state (⟨⟨hn⟩ | ⟨h⟩⟩ | _)
  · exact .inr (.inl ⟨_, hn, rfl⟩)
  · exact .inr (.inr h)
  · exact .inl rfl

theorem finite_fieldTransitions : {t | V.HasField q t}.Finite := by
  have hstates := V.finite_fieldStates q
  have hlabels := (finite_fields p).insert Field.epsilon
  refine ((hstates.prod (hlabels.prod hstates)).image fun x => ⟨x.1, x.2.1, x.2.2⟩).subset ?_
  rintro ⟨source, label, target⟩ ⟨hsource, hleads⟩
  refine ⟨(source, label, target), ⟨.source hsource, ?_, hleads.fieldState⟩, rfl⟩
  exact hleads.eq_or_pushes.imp And.left fun h => h.1.1

include hN

omit V in
theorem finite_goes (direction : Direction) : {id | N.Goes direction id}.Finite :=
  hN.subset fun _ hid => hid.imp fun _ h => h.2

theorem finite_callStates : {state | V.CallState N q state}.Finite := by
  have hown := V.finite_ownStates
  have hcopies := Set.Finite.image2 (fun state id => State.generated state (.imported id)) hown
    (finite_goes hN .forward)
  refine ((hown.union hcopies).insert (.bottom q.node)).subset ?_
  rintro state (⟨h⟩ | _ | ⟨-, hid, h⟩)
  · exact .inr (.inl h)
  · exact .inl rfl
  · exact .inr (.inr ⟨_, h, _, hid, rfl⟩)

theorem finite_callTransitions : {t | V.HasCall N q t}.Finite := by
  have hstates := V.finite_callStates hN q
  refine ((hstates.prod ((finite_statements p).prod hstates)).image
    fun x => ⟨x.1, x.2.1, x.2.2⟩).subset ?_
  rintro ⟨source, label, target⟩ ⟨hsource, hlabel, htarget⟩
  exact ⟨(source, label, target), ⟨hsource, hlabel, htarget⟩, rfl⟩

theorem finite_writes :
    {x : SolverId × Node × Field | V.Writes N x.1 x.2.1 x.2.2}.Finite :=
  (finite_goes hN .forward).prod (V.finite_nodes.prod (finite_fields p))

theorem finite_callRequests : {r | V.HasCallRequest N q r}.Finite := by
  have hwrites := V.finite_writes hN
  have hframes := finite_frames p Solver.maxFrames
  have hbackward := finite_goes hN .backward
  refine (((hwrites.prod hframes).image fun x =>
      CallRequest.callerFrames x.1.1 x.1.2.1 x.1.2.2 x.2).union
    (((hwrites.prod hframes).image fun x =>
      CallRequest.returnSites x.1.1 x.1.2.1 x.1.2.2 x.2).union
    ((Set.Finite.image2 CallRequest.storeContext hbackward V.finite_nodes).union
      (hbackward.image CallRequest.copy)))).subset ?_
  intro r hr
  cases r with
  | callerFrames requester store field frames =>
    exact .inl ⟨((requester, store, field), frames),
      ⟨hr.1, hr.2.1, Nat.le_trans hr.2.2 (Nat.sub_le _ _)⟩, rfl⟩
  | returnSites requester store field frames =>
    exact .inr (.inl ⟨((requester, store, field), frames), ⟨hr.1, hr.2⟩, rfl⟩)
  | storeContext requester value => exact .inr (.inr (.inl ⟨requester, hr.1.2, value, hr.2, rfl⟩))
  | copy requester => exact .inr (.inr (.inr ⟨requester, hr.2, rfl⟩))

theorem finite_fieldRequests : {r | V.HasFieldRequest N q r}.Finite := by
  have hwrites := V.finite_writes hN
  refine ((V.finite_nodes.image FieldRequest.allocation).union
    (((hwrites.prod V.finite_locals).image fun x =>
      FieldRequest.aliasesAt x.1.1 x.1.2.1 x.2 x.1.2.2).union
    (((hwrites.prod (finite_frames p Solver.maxFrames)).image fun x =>
      FieldRequest.returnAlias x.1.1 x.1.2.1 x.1.2.2 x.2).union
    (((finite_goes hN .backward).prod ((finite_fields p).prod V.finite_belows)).image fun x =>
      FieldRequest.storesOf x.1 x.2.1 x.2.2)))).subset ?_
  intro r hr
  cases r with
  | allocation node => exact .inl ⟨node, hr.2, rfl⟩
  | aliasesAt requester store base field =>
    exact .inr (.inl ⟨((requester, store, field), base), hr, rfl⟩)
  | returnAlias requester store field frames =>
    exact .inr (.inr (.inl ⟨((requester, store, field), frames), hr, rfl⟩))
  | storesOf requester field continuation =>
    exact .inr (.inr (.inr ⟨(requester, field, continuation), ⟨hr.1.2, hr.2⟩, rfl⟩))

omit hN in
variable {V} {q} in
theorem CallTopic.callState {r : CallRequest} {state : State}
    (h : V.CallTopic N q (r.topic state)) : V.CallState N q state := by
  cases r with
  | callerFrames =>
    simp only [CallRequest.topic] at h
    split at h
    · exact h.1
    · exact h
  | returnSites _ _ _ _ | copy _ => exact h
  | storeContext => exact h.1

/-! ### Solvers -/

/-- The solver of a query only finds so much. -/
theorem exists_facts_le_solver {ω : Type} [Weight ω] (rank : ω → Nat) :
    ∃ B, ∀ {s : Solver ω}, s.Sound → s.Within (V.solverBound N q) →
      ∀ size, (s.tally rank size).facts ≤ B := by
  have hcalls := V.finite_callTransitions hN q
  have hfields := V.finite_fieldTransitions q
  have hnodes := V.finite_nodes
  have hcallRequests := (V.finite_callStates hN q).prod (V.finite_callRequests hN q)
  have hfieldRequests := (V.finite_fieldStates q).prod (V.finite_fieldRequests hN q)
  have hunwinding := (V.finite_callStates hN q).prod ((finite_statements p).prod
    (hnodes.prod (finite_frames p Solver.maxFrames)))
  apply Exists.intro
  intro s hs hw size
  -- Each part of the facts is a set of things of the vocabulary.
  have hnode : ∀ {n label state}, fieldAt n label state ∈ s.fields.transitions →
      V.HasNode n := fun ht => hasNode_of_hasField (hw.field ht)
  have hnode' : ∀ {n state}, callAt n state ∈ s.calls.transitions → V.HasNode n :=
    fun {n state} ht => by
      obtain ⟨hsource, hlabel, -⟩ := hw.call ht
      exact ⟨hlabel, hsource.mem_locals⟩
  refine Nat.add_le_add (Nat.add_le_add (Nat.add_le_add (Nat.add_le_add (Nat.add_le_add
    (Nat.add_le_add (size_hashMap_le hcalls fun t ht => ?_)
      (size_hashMap_le hfields fun t ht => ?_))
      (size_hashSet_le hnodes fun n hn => ?_)) (size_hashSet_le hnodes fun n hn => ?_))
      (size_hashSet_le hcallRequests ?_)) (size_hashSet_le hfieldRequests ?_))
      (size_hashSet_le hunwinding ?_)
  · exact hw.call ((hs.calls.mem_transitions_iff t).2 ht)
  · exact hw.field ((hs.fields.mem_transitions_iff t).2 ht)
  · obtain ⟨state, ht⟩ := hs.callReached hn
    exact hnode' ht
  · obtain ⟨label, state, ht⟩ := hs.fieldReached hn
    exact hnode ht
  · rintro ⟨state, r⟩ hr
    obtain ⟨htopic, hrequest⟩ := hw.callRule (hs.callRequests hr)
    exact ⟨htopic.callState, hrequest⟩
  · rintro ⟨state, r⟩ hr
    exact hw.fieldRule (hs.fieldRequests hr)
  · rintro ⟨state, label, target, frames⟩ hx
    obtain ⟨⟨hstate, hlabel⟩, hnode, hframes⟩ := hw.callRule (hs.unwinding hx)
    exact ⟨hstate, hlabel, hnode, hframes⟩

/-! ### Registrations -/

omit hN in
/-- The registration is about solvers that are named and a part of the vocabulary. -/
def HasRegistration (N : Naming) : Registration → Prop
  | .aliasesAt id requester n | .storeContext id requester n =>
    (∃ q, N id q) ∧ (∃ q, N requester q) ∧ V.HasNode n
  | .storesOf id requester field continuation =>
    (∃ q, N id q) ∧ (∃ q, N requester q) ∧ field ∈ p.fields ∧ V.Below continuation
  | .copy id requester state =>
    (∃ q, N id q) ∧ (∃ q, N requester q) ∧ ∃ q : Query, V.HasNode q.node ∧ V.CallState N q state

theorem finite_registrations : {x | V.HasRegistration N x}.Finite := by
  have hstates : {state | ∃ q : Query, V.HasNode q.node ∧ V.CallState N q state}.Finite := by
    refine (V.finite_queries.biUnion fun q _ => V.finite_callStates hN q).subset ?_
    rintro state ⟨q, hq, hstate⟩
    exact Set.mem_biUnion hq hstate
  refine (((hN.prod (hN.prod V.finite_nodes)).image fun x =>
      Registration.aliasesAt x.1 x.2.1 x.2.2).union
    (((hN.prod (hN.prod V.finite_nodes)).image fun x =>
      Registration.storeContext x.1 x.2.1 x.2.2).union
    (((hN.prod (hN.prod ((finite_fields p).prod V.finite_belows))).image fun x =>
      Registration.storesOf x.1 x.2.1 x.2.2.1 x.2.2.2).union
    ((hN.prod (hN.prod hstates)).image fun x => Registration.copy x.1 x.2.1 x.2.2)))).subset ?_
  intro x hx
  cases x with
  | aliasesAt id requester n => exact .inl ⟨(id, requester, n), hx, rfl⟩
  | storeContext id requester n => exact .inr (.inl ⟨(id, requester, n), hx, rfl⟩)
  | storesOf id requester field continuation =>
    exact .inr (.inr (.inl ⟨(id, requester, field, continuation), hx, rfl⟩))
  | copy id requester state => exact .inr (.inr (.inr ⟨(id, requester, state), hx, rfl⟩))

end Named

theorem HasRegistration.mono {V : Vocabulary p} {N N' : Naming} (hN : N.Le N') {x : Registration}
    (h : V.HasRegistration N x) : V.HasRegistration N' x := by
  have hnamed : ∀ {id}, (∃ q, N id q) → ∃ q, N' id q := fun h => h.imp fun _ h => hN h
  cases x with
  | copy =>
    obtain ⟨hid, hrequester, q, hq, hstate⟩ := h
    exact ⟨hnamed hid, hnamed hrequester, q, hq, hstate.mono hN⟩
  | _ => exact ⟨hnamed h.1, hnamed h.2.1, h.2.2⟩

end Vocabulary

/-! ### Runs -/

theorem Tally.facts_total_le {B : Nat} {as : List Tally} (h : ∀ a ∈ as, a.facts ≤ B) :
    (total as).facts ≤ as.length * B := by
  induction as with
  | nil => exact Nat.zero_le _
  | cons a _ ih =>
    have ha := h a mem_cons_self
    have has := ih fun b hb => h b (mem_cons_of_mem _ hb)
    rw [length_cons, Nat.succ_mul, Nat.add_comm]
    exact Nat.add_le_add ha has

namespace Run

variable {ω : Type}

/-- The stores that registrations are about are stores, and the size of the call graph is
    the number of its edges. -/
structure Booked (r : Run ω) : Prop where
  stores : ∀ {x}, x ∈ r.registered → x.Stores
  counted : r.graph.Counted

variable {p : Program} {V : Vocabulary p} {r : Run ω}

/-- There are no more solvers than there are queries. -/
theorem Within.size_le (hw : r.Within (V.bound g)) :
    r.solvers.size ≤ {q : Query | V.HasNode q.node}.ncard := by
  have hnamed : ∀ i : Fin r.solvers.size, ∃ q, r.Names ⟨i⟩ q := fun i => by
    have hs : r.solver? ⟨i⟩ = some r.solvers[i] := Array.getElem?_eq_getElem i.2
    exact hw.named hs
  choose query hquery using hnamed
  have hinjective : Function.Injective query := fun i j heq => by
    have hi := hquery i
    rw [Names, heq, hquery j] at hi
    exact Fin.ext (congrArg SolverId.index (some.inj hi)).symm
  have hle := length_le_ncard V.finite_queries (List.nodup_ofFn.2 hinjective) fun q hq => by
    obtain ⟨i, rfl⟩ := (List.mem_ofFn ..).1 hq
    exact hw.query (hquery i)
  rwa [List.length_ofFn] at hle

variable [Weight ω] [DecidableEq ω] {c : Setting ω} {waiting : SolverId → Message → Prop}

/-- Registrations are within the vocabulary, since the rules that back them are. -/
theorem Within.hasRegistration (h : r.Core c waiting) (hw : r.Within (V.bound g))
    (hbooked : r.Booked) {x : Registration} (hx : x ∈ r.registered) :
    V.HasRegistration r.Names x := by
  have hstores := hbooked.stores hx
  have hgoes : ∀ {direction id}, r.Names.Goes direction id → ∃ q, r.Names id q :=
    fun hid => hid.imp fun _ h => h.2
  cases x with
  | aliasesAt =>
    obtain ⟨base, field, haction⟩ := hstores
    obtain ⟨s, hs, hlistens⟩ := h.installed hx
    obtain ⟨q, hq⟩ := hw.named hs
    obtain ⟨-, ⟨hrequester, hnode, -⟩, -⟩ :=
      (hw.solver hq hs).fieldRule (hlistens base field haction).1
    exact ⟨⟨q, hq⟩, hgoes hrequester, hnode⟩
  | storeContext =>
    obtain ⟨base, field, haction⟩ := hstores
    obtain ⟨s, hs, hlistens⟩ := h.installed hx
    obtain ⟨q, hq⟩ := hw.named hs
    obtain ⟨-, ⟨-, hrequester⟩, hnode⟩ := (hw.solver hq hs).callRule (hlistens base field haction)
    exact ⟨⟨q, hq⟩, hgoes hrequester, hnode⟩
  | storesOf =>
    obtain ⟨s, hs, hlistens⟩ := h.installed hx
    obtain ⟨q, hq⟩ := hw.named hs
    obtain ⟨-, ⟨-, hrequester⟩, hfield, hbelow⟩ := (hw.solver hq hs).fieldRule hlistens
    exact ⟨⟨q, hq⟩, hgoes hrequester, hfield, hbelow⟩
  | copy =>
    obtain ⟨s, hs, hlistens⟩ := h.installed hx
    obtain ⟨q, hq⟩ := hw.named hs
    obtain ⟨hstate, -, hrequester⟩ := (hw.solver hq hs).callRule hlistens
    exact ⟨⟨q, hq⟩, hgoes hrequester, q, hw.query hq, hstate⟩

end Run

open Run in
/-- However long it goes on, a run only finds so much. -/
theorem Vocabulary.exists_facts_le (V : Vocabulary p) (g : CallGraph) {ω : Type} [Weight ω]
    [DecidableEq ω] (c : Setting ω) (rank : ω → Nat) :
    ∃ B, ∀ {r : Run ω}, r.Kept c Nothing → r.Within (V.bound g) → r.Booked →
      (r.tally rank).facts ≤ B := by
  obtain ⟨K, hK⟩ : ∃ K, K = {q : Query | V.HasNode q.node}.ncard := ⟨_, rfl⟩
  -- All numbers below `K` may be those of solvers, for any query.
  obtain ⟨N, hN⟩ : ∃ N : Naming, N = fun id _ => id.index < K := ⟨_, rfl⟩
  have hfinite : {id | ∃ q, N id q}.Finite := by
    refine ((Set.finite_lt_nat K).image SolverId.mk).subset ?_
    rintro ⟨i⟩ ⟨q, hi⟩
    rw [hN] at hi
    exact ⟨i, hi, rfl⟩
  choose B hB using fun q => V.exists_facts_le_solver hfinite q rank
  obtain ⟨S, hS⟩ := (V.finite_queries.image B).bddAbove
  refine ⟨K * S + ({x | V.HasRegistration N x}.ncard + {e | p.HasEdge e}.ncard + K),
    fun {r} hkept hw hbooked => ?_⟩
  have hsize : r.solvers.size ≤ K := hK ▸ hw.size_le
  have hnames : r.Names.Le N := fun id q hq => by
    obtain ⟨s, hs, -⟩ := hkept.ids hq
    rw [hN]
    exact Nat.lt_of_lt_of_le (index_lt hs) hsize
  have hsolver : ∀ a ∈ r.solvers.toList.map (Solver.tally rank r.graph.size), a.facts ≤ S := by
    intro a ha
    obtain ⟨s, hs, rfl⟩ := mem_map.1 ha
    obtain ⟨i, hi⟩ := List.mem_iff_getElem?.1 hs
    have hs : r.solver? ⟨i⟩ = some s := by rwa [Array.getElem?_toList] at hi
    obtain ⟨q, hq⟩ := hw.named hs
    have hwithin : s.Within (V.solverBound N q) := (hw.solver hq hs).mono (solverBound_le hnames)
    exact Nat.le_trans (hB q (hkept.kept hs).sound hwithin _)
      (hS ⟨q, hw.query hq, rfl⟩)
  have hregistered : r.registered.size ≤ {x | V.HasRegistration N x}.ncard :=
    size_hashSet_le (V.finite_registrations hfinite) fun x hx =>
      (hw.hasRegistration hkept.toCore hbooked hx).mono hnames
  have hgraph : r.graph.size ≤ {e | p.HasEdge e}.ncard :=
    Program.Builds.size_le ⟨hbooked.counted, hw.edge⟩ (finite_edges p)
  have htotal := Tally.facts_total_le hsolver
  rw [List.length_map, Array.length_toList] at htotal
  exact Nat.add_le_add (Nat.le_trans htotal (Nat.mul_le_mul_right S hsize))
    (Nat.add_le_add (Nat.add_le_add hregistered hgraph) hsize)

end DemandAlias
