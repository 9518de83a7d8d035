import DemandAlias.Proofs.Solver.Listing

/-!
# Moves backward and moves forward

A move backward that accesses no field leads to a node from which a move forward leads
back: over a statement (`Flow.Forward.step_mem_moves_of_movesOver`), into a method where it
returns and out of it to where it was called (`Flow.Forward.pop_mem_toCaller`), and out of
a method where it starts and into it from a call (`Flow.Forward.push_mem_intoCallee`).
Both directions find the same calls in the class hierarchy
(`CallGraph.mem_callers_classHierarchy`).
-/

namespace DemandAlias

variable {callee : Method} {m : Move}

/-! ### The class hierarchy -/

namespace CallGraph

variable {site : Statement} {m : MethodName} {p : Program}

/-- Calls are found from both of their ends. -/
theorem ListedBy.mem_callers_iff {g : CallGraph} {es : List CallEdge} (h : g.ListedBy es) :
    site ∈ g.callers m ↔ m ∈ g.callees site := by
  have hout : ⟨site, m⟩ ∈ (Crossing.outOf m).edges g ↔ ⟨site, m⟩ ∈ es := by
    rw [h.edges]
    simp [Crossing.edgesIn]
  have hedge := h.hasEdge site m
  rw [CallGraph.hasEdge, List.contains_iff_mem] at hedge
  rw [hedge, ← hout]
  simp [Crossing.edges]

theorem mem_addNew {es : List CallEdge} {e e' : CallEdge} : e' ∈ addNew es e ↔ e' ∈ es ∨ e' = e := by
  unfold addNew
  split
  · next he => exact ⟨.inl, fun h => h.elim id fun heq => heq ▸ he⟩
  · simp

/-- What is listed in the end was listed at the beginning or by one of the rounds. -/
theorem mem_foldl_iff {α : Type} {f : List CallEdge → α → List CallEdge} {e : CallEdge}
    {P : α → Prop} (hf : ∀ es a, e ∈ f es a ↔ e ∈ es ∨ P a) (as : List α) (es : List CallEdge) :
    e ∈ as.foldl f es ↔ e ∈ es ∨ ∃ a ∈ as, P a := by
  induction as generalizing es with
  | nil => simp
  | cons _ _ ih => simp [ih, hf, or_assoc]

/-- The edges of the class hierarchy are those of the calls of the program to what they may call. -/
theorem mem_hierarchyEdges_iff {e : CallEdge} :
    e ∈ hierarchyEdges p ↔
      e.site ∈ p.invocations ∧ ∃ c, e.site.call? = some c ∧ e.callee ∈ possibleCallees p c := by
  have hcallee : ∀ (site : Statement) es m,
      e ∈ addNew es ⟨site, m⟩ ↔ e ∈ es ∨ site = e.site ∧ m = e.callee := by
    intro site es m
    rw [mem_addNew, eq_comm, CallEdge.mk.injEq]
  unfold hierarchyEdges
  rw [mem_foldl_iff (P := fun site => site = e.site ∧
    ∃ c, e.site.call? = some c ∧ e.callee ∈ possibleCallees p c) fun es site => ?_]
  · rw [or_iff_right not_mem_nil]
    constructor
    · rintro ⟨_, hsite, rfl, hcallees⟩
      exact ⟨hsite, hcallees⟩
    · rintro ⟨hsite, hcallees⟩
      exact ⟨_, hsite, rfl, hcallees⟩
  cases hcall : site.call? with
  | none =>
    refine ⟨.inl, fun h => h.elim id ?_⟩
    rintro ⟨rfl, c, hc, -⟩
    rw [hcall] at hc
    cases hc
  | some c =>
    dsimp only
    rw [mem_foldl_iff (hcallee site)]
    refine or_congr_right ⟨?_, ?_⟩
    · rintro ⟨_, hm, rfl, rfl⟩
      exact ⟨rfl, c, hcall, hm⟩
    · rintro ⟨rfl, c', hc', hm⟩
      cases hcall.symm.trans hc'
      exact ⟨_, hm, rfl, rfl⟩

/-- A call may call what the class hierarchy has for it. -/
theorem mem_callees_classHierarchy_iff :
    m ∈ (classHierarchy p).callees site ↔
      site ∈ p.statements ∧ ∃ c, site.call? = some c ∧ m ∈ possibleCallees p c := by
  have hedge := (listedBy_classHierarchy p).hasEdge site m
  rw [CallGraph.hasEdge, List.contains_iff_mem] at hedge
  rw [hedge, mem_hierarchyEdges_iff, Program.invocations, mem_filter, and_assoc]
  refine and_congr_right fun _ => and_iff_right_of_imp ?_
  rintro ⟨c, hc, -⟩
  rw [Statement.isCall, hc]
  rfl

theorem mem_callers_classHierarchy :
    site ∈ (classHierarchy p).callers m ↔ m ∈ (classHierarchy p).callees site :=
  (listedBy_classHierarchy p).mem_callers_iff

end CallGraph

namespace Flow

open Forward (flow intoCallee toCaller)

variable {p : Program} {seed : Node} {s t site : Statement} {x v : Local}

/-! ### Over a statement -/

/-- A local keeps the object over a statement that does not assign it, and over the one
    that creates the object in it. -/
theorem Forward.step_mem_moves (ht : t ∈ p.successors s)
    (hkeeps : s.defined? ≠ some x ∨ (⟨s, x⟩ : Node) = seed) (hreturn : s.isReturn = false) :
    .step ⟨t, x⟩ ∈ (flow p seed ⟨s, x⟩).moves := by
  have hstays : .step ⟨t, x⟩ ∈ stepsTo (p.successors s) x := mem_map.2 ⟨t, ht, rfl⟩
  have hassigned : ∀ {y e}, s.action = .assign y e →
      .step ⟨t, x⟩ ∈ if y ≠ x ∨ (⟨s, x⟩ : Node) = seed then stepsTo (p.successors s) x else [] := by
    intro y e haction
    refine List.mem_ite_nil_right.2 ⟨hkeeps.imp_left fun hne heq => hne ?_, hstays⟩
    rw [Statement.defined?, haction, heq]
  cases haction : s.action with
  | assign y e =>
    cases e with
    | copy _ | load _ _ =>
      simp only [flow, haction]
      exact mem_append_right _ (hassigned haction)
    | alloc _ | const _ | call _ =>
      simp only [flow, haction]
      exact hassigned haction
  | store =>
    simp only [flow, haction]
    split
    · exact mem_append_right _ hstays
    · exact hstays
  | ret => simp [Statement.isReturn, haction] at hreturn
  | call _ | branch _ _ | jump _ | nop =>
    simp only [flow, haction]
    exact hstays

/-- Backward over a statement that accesses no field, a local was not assigned, or a value
    was created in it, or it was assigned another local. -/
theorem Backward.eq_step_of_mem_movesOver (hfield : s.field? = none)
    (hm : m ∈ Backward.movesOver v s) :
    (s.defined? ≠ some v ∨ s.allocates v = true) ∧ m = .step ⟨s, v⟩ ∨
      ∃ u, s.action = .assign v (.copy u) ∧ m = .step ⟨s, u⟩ := by
  cases haction : s.action with
  | assign target value =>
    simp only [Backward.movesOver, haction] at hm
    by_cases htarget : target = v
    · subst htarget
      rw [if_pos rfl] at hm
      cases value with
      | copy u => exact .inr ⟨u, rfl, mem_singleton.1 hm⟩
      | alloc _ | const _ =>
        refine .inl ⟨.inr ?_, mem_singleton.1 hm⟩
        simp [Statement.allocates, haction, Expr.creates]
      | load _ field => simp [Statement.field?, Action.field?, haction] at hfield
      | call => cases hm
    · rw [if_neg htarget] at hm
      refine .inl ⟨.inl ?_, mem_singleton.1 hm⟩
      simpa [Statement.defined?, haction] using htarget
  | store _ field => simp [Statement.field?, Action.field?, haction] at hfield
  | call _ | branch _ _ | jump _ | ret _ | nop =>
    simp only [Backward.movesOver, haction] at hm
    exact .inl ⟨.inl (by simp [Statement.defined?, haction]), mem_singleton.1 hm⟩

/-- Where the search backward goes over a statement, the object goes forward, unless it is
    created there and is another one. -/
theorem Forward.step_mem_moves_of_movesOver (seed : Node) (ht : t ∈ p.successors s)
    (hreturn : s.isReturn = false) (hfield : s.field? = none) (hm : m ∈ Backward.movesOver v s) :
    ∃ u, m = .step ⟨s, u⟩ ∧ ((s.allocates u = true → (⟨s, u⟩ : Node) = seed) →
      .step ⟨t, v⟩ ∈ (flow p seed ⟨s, u⟩).moves) := by
  rcases Backward.eq_step_of_mem_movesOver hfield hm with ⟨hkeeps, rfl⟩ | ⟨u, haction, rfl⟩
  · exact ⟨v, rfl, fun hseed => step_mem_moves ht (hkeeps.imp_right hseed) hreturn⟩
  · refine ⟨u, rfl, fun _ => ?_⟩
    simp only [flow, haction, if_true]
    exact mem_append_left _ (mem_map.2 ⟨t, ht, rfl⟩)

/-! ### Into methods and out of them -/

theorem getElem?_of_paramIndex? {m : Method} {l : Local} {i : Nat} (h : m.paramIndex? l = some i) :
    m.params[i]? = some l := by
  rw [Method.paramIndex?, List.idxOf?, List.findIdx?_eq_some_iff_getElem] at h
  obtain ⟨hi, hl, -⟩ := h
  rw [List.getElem?_eq_getElem hi, eq_of_beq hl]

/-- An argument that is a local has its place among those of the local. -/
theorem mem_placesOf {c : Call} {i : Nat} {l : Local} (h : c.argument? i = some l) :
    i ∈ c.placesOf l ∧ c.uses l = true := by
  obtain ⟨a, ha, hvar⟩ := bind_eq_some_iff.1 h
  constructor
  · refine mem_map.2 ⟨(a, i), mem_filter.2 ⟨?_, by simp [hvar]⟩, rfl⟩
    exact List.mem_zipIdx_iff_getElem?.2 ha
  · simp only [Call.uses, Bool.or_eq_true, any_eq_true, beq_iff_eq]
    exact .inr ⟨a, List.mem_of_getElem? ha, hvar⟩

theorem Backward.exists_exit_of_mem_intoCallee (hm : m ∈ Backward.intoCallee site callee) :
    ∃ exit ∈ callee.exits, ∃ v, exit.action = .ret (some (.var v)) ∧
      m = .push ⟨exit, v⟩ (.call site) := by
  obtain ⟨exit, hexit, hm⟩ := mem_filterMap.1 hm
  refine ⟨exit, hexit, ?_⟩
  split at hm
  · next v haction => exact ⟨v, haction, (some.inj hm).symm⟩
  · cases hm

/-- What a method returns is what the call is assigned to holds after it. -/
theorem Forward.pop_mem_toCaller {exit : Statement} (ht : t ∈ p.successors site)
    (hresult : Backward.isResultOf x site = true) (haction : exit.action = .ret (some (.var v))) :
    .pop ⟨t, x⟩ (.call site) ∈ toCaller p ⟨exit, v⟩ callee site := by
  simp only [Backward.isResultOf, and_eq_true, beq_iff_eq] at hresult
  obtain ⟨hcall, hdefined⟩ := hresult
  obtain ⟨c, hc⟩ := isSome_iff_exists.1 hcall
  simp only [toCaller, hc]
  refine mem_flatMap.2 ⟨t, ht, mem_map.2 ⟨x, ?_, rfl⟩⟩
  simp [Forward.returnedTo, haction, hdefined]

/-- What a parameter or the receiver holds when a method starts was passed by its call. -/
theorem Forward.push_mem_intoCallee (p : Program) (seed : Node) {n : Node}
    (hm : m ∈ Backward.toCaller n callee site) (hstart : callee.start? = some n.stmt) :
    ∃ u, m = .pop ⟨site, u⟩ (.call site) ∧ site ∈ (flow p seed ⟨site, u⟩).callSites ∧
      .push n (.call site) ∈ intoCallee ⟨site, u⟩ site callee := by
  unfold Backward.toCaller at hm
  split at hm
  · cases hm
  · next c hc =>
    obtain ⟨u, hu, rfl⟩ := mem_map.1 hm
    have hpassed : c.uses u = true ∧ .push n (.call site) ∈ intoCallee ⟨site, u⟩ site callee := by
      simp only [intoCallee, hc, hstart]
      rcases mem_append.1 hu with hargument | hreceiver
      · obtain ⟨i, hi, hargument⟩ := bind_eq_some_iff.1 (mem_toList.1 hargument)
        obtain ⟨hplace, huses⟩ := mem_placesOf hargument
        have hparam := mem_filterMap.2 ⟨i, hplace, getElem?_of_paramIndex? hi⟩
        exact ⟨huses, mem_map.2 ⟨n.var, mem_append_left _ hparam, rfl⟩⟩
      · split at hreceiver
        · next hn =>
          have hu := mem_toList.1 hreceiver
          refine ⟨by simp [Call.uses, hu], mem_map.2 ⟨n.var, mem_append_right _ ?_, rfl⟩⟩
          rw [if_pos hu, mem_toList]
          exact eq_of_beq hn
        · cases hreceiver
    refine ⟨u, rfl, ?_, hpassed.2⟩
    unfold Statement.call? at hc
    split at hc
    · next haction =>
      cases hc
      simp [flow, haction, hpassed.1]
    · next haction =>
      cases hc
      simp [flow, haction, hpassed.1]
    · cases hc

end Flow

end DemandAlias
