import DemandAlias.Proofs.Program.Hierarchy
import DemandAlias.Proofs.Solver.Listing
import Mathlib.Algebra.BigOperators.Group.Finset.Sigma
import Mathlib.Algebra.Order.BigOperators.Group.Finset

/-!
# The books of a call graph

A call graph keeps its edges twice, by call site and by callee, and counts them. However edges are
added, the books agree (`Consistent`), and what was read from them stays valid
(`consistent_addEdges`).
-/

namespace DemandAlias.CallGraph

/-- The graph with some edges added, one after the other. -/
def addEdges (g : CallGraph) (es : List CallEdge) : CallGraph :=
  es.foldl (fun g e => (g.insertEdge e.site e.callee).2) g

/-- The graph without edges, or that of the class hierarchy of a program, with some edges added. -/
def built (start : Option Program) (es : List CallEdge) : CallGraph :=
  (start.elim empty classHierarchy).addEdges es

/-- Both lists of a call graph tell the same edges, each once, and the size counts them. -/
structure Consistent (g : CallGraph) : Prop where
  mem_callees_iff : ∀ site m, m ∈ g.callees site ↔ site ∈ g.callers m
  nodup_callees : ∀ site, (g.callees site).Nodup
  nodup_callers : ∀ m, (g.callers m).Nodup
  card_edges : ∃ edges : Finset CallEdge,
    (∀ e, e ∈ edges ↔ e.callee ∈ g.callees e.site) ∧ edges.card = g.size
  sum_callees : ∀ sites : Finset Statement, (∀ s, g.callees s ≠ [] → s ∈ sites) →
    ∑ s ∈ sites, (g.callees s).length = g.size
  sum_callers : ∀ methods : Finset MethodName, (∀ m, g.callers m ≠ [] → m ∈ methods) →
    ∑ m ∈ methods, (g.callers m).length = g.size

/-- The edges are listed as they came, each once. -/
def Tidy (g : CallGraph) : Prop := ∃ es, g.ListedBy es ∧ es.Nodup

variable {g g' : CallGraph} {es : List CallEdge}

theorem tidy_empty : empty.Tidy := ⟨[], listedBy_empty, nodup_nil⟩

theorem Tidy.addEdge (h : g.Tidy) (site : Statement) (m : MethodName) :
    (g.addEdge site m).Tidy := by
  obtain ⟨es, h, hnodup⟩ := h
  refine ⟨_, h.addEdge site m, ?_⟩
  unfold addNew
  split
  · exact hnodup
  · exact List.nodup_append.2 ⟨hnodup, List.nodup_singleton _, by simp; grind⟩

theorem tidy_built (start : Option Program) (es : List CallEdge) : (built start es).Tidy := by
  refine List.foldlRecOn (motive := Tidy) _ _ ?_ fun _ h e _ => h.addEdge e.site e.callee
  cases start with
  | none => exact tidy_empty
  | some p =>
    refine List.foldlRecOn (motive := Tidy) _ _ tidy_empty fun g h site _ => ?_
    cases site.call? with
    | none => exact h
    | some c => exact List.foldlRecOn (motive := Tidy) _ _ h fun g h m _ => h.addEdge site m

/-- Sorted by a key, the edges are as many as before. -/
theorem sum_length_filter {α : Type} [DecidableEq α] (key : CallEdge → α) (h : es.Nodup)
    {keys : Finset α} (hkeys : ∀ e ∈ es, key e ∈ keys) :
    ∑ a ∈ keys, (es.filter (key · = a)).length = es.length := by
  have hcard := Finset.card_eq_sum_card_fiberwise (f := key) (s := es.toFinset) (t := keys)
    fun e he => hkeys e (List.mem_toFinset.1 he)
  rw [List.toFinset_card_of_nodup h] at hcard
  rw [hcard]
  refine Finset.sum_congr rfl fun a _ => ?_
  rw [← List.toFinset_card_of_nodup (h.filter _), List.toFinset_filter]
  simp only [decide_eq_true_eq]

theorem Tidy.nodup_edges (h : g.Tidy) (x : Crossing) : (x.edges g).Nodup := by
  obtain ⟨es, h, hnodup⟩ := h
  rw [h.edges]
  cases x <;> exact hnodup.filter _

theorem Tidy.consistent (h : g.Tidy) : g.Consistent := by
  have hnodup := h.nodup_edges
  obtain ⟨es, h, hes⟩ := h
  have hcallee : ∀ {site m}, m ∈ g.callees site ↔ ⟨site, m⟩ ∈ es := fun {site m} => by
    rw [← h.hasEdge, hasEdge, List.contains_iff_mem]
  have hcaller : ∀ {site m}, site ∈ g.callers m ↔ ⟨site, m⟩ ∈ es := fun {site m} => by
    rw [← Grows.mem_edges_outOf, h.edges]
    simp [Crossing.edgesIn]
  have hlength : ∀ x : Crossing, (x.edges g).length = (x.edgesIn es).length := fun x => by
    rw [h.edges]
  exact {
    mem_callees_iff := fun _ _ => hcallee.trans hcaller.symm
    nodup_callees := fun site => (hnodup (.into site)).of_map _
    nodup_callers := fun m => (hnodup (.outOf m)).of_map _
    card_edges := ⟨es.toFinset, fun e => List.mem_toFinset.trans hcallee.symm,
      (List.toFinset_card_of_nodup hes).trans h.size.symm⟩
    sum_callees := fun sites hsites => by
      rw [h.size, ← sum_length_filter CallEdge.site hes fun e he =>
        hsites _ (List.ne_nil_of_mem (hcallee.2 he))]
      exact Finset.sum_congr rfl fun s _ => (List.length_map ..).symm.trans (hlength (.into s))
    sum_callers := fun methods hmethods => by
      rw [h.size, ← sum_length_filter CallEdge.callee hes fun e he =>
        hmethods _ (List.ne_nil_of_mem (hcaller.2 he))]
      exact Finset.sum_congr rfl fun m _ => (List.length_map ..).symm.trans (hlength (.outOf m)) }

theorem grows_addEdges (g : CallGraph) (es : List CallEdge) : g.Grows (g.addEdges es) :=
  List.foldlRecOn (motive := g.Grows) _ _ (.refl g) fun _ h _ _ => h.trans (.addEdge ..)

theorem Grows.callees_prefix (h : g.Grows g') (site : Statement) :
    g.callees site <+: g'.callees site := by
  simpa [Crossing.edges, Function.comp_def] using (h.edges (.into site)).map CallEdge.callee

theorem Grows.callers_prefix (h : g.Grows g') (m : MethodName) :
    g.callers m <+: g'.callers m := by
  simpa [Crossing.edges, Function.comp_def] using (h.edges (.outOf m)).map CallEdge.site

theorem mem_callees_addEdges_iff (g : CallGraph) (es : List CallEdge) {site : Statement}
    {m : MethodName} : m ∈ (g.addEdges es).callees site ↔ ⟨site, m⟩ ∈ es ∨ m ∈ g.callees site := by
  induction es generalizing g with
  | nil => simp [addEdges]
  | cons e es ih =>
    obtain ⟨site', m'⟩ := e
    have hedge : m ∈ (g.addEdge site' m').callees site ↔
        m ∈ g.callees site ∨ site' = site ∧ m = m' := by
      rw [callees_addEdge]
      unfold addNew
      grind
    refine (ih (g.addEdge site' m')).trans ?_
    rw [hedge]
    grind

/-- Whatever edges are added to the graph without edges or to that of a class hierarchy, both lists
    tell the same edges, each once, and the size counts them; an edge is new exactly if it is not
    there yet, and otherwise nothing changes; and lists only get longer. -/
theorem consistent_addEdges (start : Option Program) (es later : List CallEdge) :
    let g := built start es
    g.Consistent ∧
    (∀ site m, m ∈ g.callees site ↔ ⟨site, m⟩ ∈ es ∨ m ∈ (built start []).callees site) ∧
    (∀ site m, ((g.insertEdge site m).1 = true ↔ m ∉ g.callees site) ∧
      ((g.insertEdge site m).1 = false → (g.insertEdge site m).2 = g)) ∧
    (∀ site, g.callees site <+: (g.addEdges later).callees site) ∧
    ∀ m, g.callers m <+: (g.addEdges later).callers m := by
  intro g
  have hgrows := grows_addEdges g later
  refine ⟨(tidy_built start es).consistent, fun _ _ => mem_callees_addEdges_iff _ es,
    fun site m => ⟨?_, fun h => ?_⟩, hgrows.callees_prefix, hgrows.callers_prefix⟩
  · simp [insertEdge, hasEdge]
  · have hknown : g.hasEdge site m = true := by simpa [insertEdge] using h
    simp [insertEdge, addEdge, hknown]

end DemandAlias.CallGraph
