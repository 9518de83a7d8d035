import DemandAlias.Program.CallGraph
import DemandAlias.Proofs.Data.Listing
import DemandAlias.Proofs.Data.Sorting
import DemandAlias.Proofs.Program.Layout
import Mathlib.Data.List.Induction

/-!
# Programs in order

A program that a description describes lists its statements in increasing order, and with them
its calls and allocation sites (`Program.ascending_statements`). The call graph of the class
hierarchy is filled from these lists: a call has its callees in the order of the classes, each
once (`CallGraph.callees_classHierarchy`), and a method has its callers in the order of
statements (`CallGraph.callers_classHierarchy`).
-/

namespace DemandAlias

open Std

/-! ### Statements -/

theorem Statement.compare_of_method {s t : Statement} (h : compare s.method t.method = .lt) :
    compare s t = .lt := by
  show (compare s.method t.method).then _ = .lt
  rw [h]
  rfl

theorem Statement.compare_of_index {s t : Statement} (hmethod : s.method = t.method)
    (h : s.index < t.index) : compare s t = .lt := by
  show (compare s.method t.method).then ((compare s.index t.index).then _) = .lt
  rw [hmethod, ReflOrd.compare_self, Nat.compare_eq_lt.2 h]
  rfl

theorem Method.IsLaidOut.increasing_body {m : Method} (h : m.IsLaidOut) :
    m.body.toList.Pairwise fun s t => s.index < t.index := by
  refine List.pairwise_iff_getElem.2 fun i j hi hj hij => ?_
  have hs := h.index_of_getElem? (Array.getElem?_eq_getElem (by simpa using hi))
  have ht := h.index_of_getElem? (Array.getElem?_eq_getElem (by simpa using hj))
  rwa [Array.getElem_toList, Array.getElem_toList, hs.1, ht.1]

theorem Method.IsLaidOut.ascending_body {m : Method} (h : m.IsLaidOut) :
    Ascending m.body.toList := by
  refine h.increasing_body.imp_of_mem fun hs ht hlt => Statement.compare_of_index ?_ hlt
  rw [h.method_of_mem (Array.mem_toList_iff.1 hs), h.method_of_mem (Array.mem_toList_iff.1 ht)]

namespace Program

variable {d : Description} {p : Program}

variable (h : d.resolve = .ok p)
include h

theorem ascending_methods : Ascending (p.methods.map Method.name) := by
  have hnodup := Description.namesDistinct_of_resolve h
  obtain ⟨classes, methods, -, -, rfl⟩ := Description.resolve_eq_ok_iff.1 h
  exact (inOrder_map_sortedBy Method.name methods).ascending hnodup

/-- The statements are listed in increasing order. -/
theorem ascending_statements : Ascending p.statements := by
  have hlaid := isLaidOut_of_resolve h
  refine List.pairwise_flatMap.2 ⟨fun m hm => (hlaid m hm).ascending_body, ?_⟩
  refine (List.pairwise_map.1 (ascending_methods h)).imp_of_mem fun hm hm' hlt s hs t ht => ?_
  refine Statement.compare_of_method ?_
  rwa [(hlaid _ hm).method_of_mem (Array.mem_toList_iff.1 hs),
    (hlaid _ hm').method_of_mem (Array.mem_toList_iff.1 ht)]

theorem ascending_invocations : Ascending p.invocations :=
  (ascending_statements h).sublist List.filter_sublist

/-- The sites that create a value are listed in increasing order. -/
theorem ascending_allocationSites : Ascending (p.allocationSites.map (·.1)) := by
  refine (ascending_statements h).sublist ?_
  rw [← List.map_id p.statements]
  refine map_filterMap_sublist (fun {s x} hx => ?_) p.statements
  split at hx
  · split at hx <;> cases hx
    rfl
  · cases hx

end Program

/-! ### The class hierarchy -/

namespace CallGraph

/-- The methods that the class hierarchy has for a statement, in the order of the classes. -/
def calleesIn (p : Program) (site : Statement) : List MethodName :=
  site.call?.elim [] (possibleCallees p)

/-- The graph with an edge from `site` to each method the class hierarchy has for it. -/
def addSite (p : Program) (g : CallGraph) (site : Statement) : CallGraph :=
  (calleesIn p site).foldl (fun g m => g.addEdge site m) g

theorem classHierarchy_eq (p : Program) :
    classHierarchy p = p.invocations.foldl (addSite p) empty := by
  refine congrArg (fun f => p.invocations.foldl f empty) (funext₂ fun g site => ?_)
  unfold addSite calleesIn
  cases site.call? <;> rfl

theorem callees_addEdge (g : CallGraph) (site s : Statement) (m : MethodName) :
    (g.addEdge site m).callees s = if site = s then addNew (g.callees s) m else g.callees s := by
  unfold addEdge hasEdge addNew
  by_cases hs : site = s
  · subst hs
    split <;> simp_all [callees, get_file]
  · split <;> simp_all [callees, get_file]

theorem callers_addEdge (g : CallGraph) (site : Statement) (m n : MethodName) :
    (g.addEdge site m).callers n =
      if m = n ∧ m ∉ g.callees site then g.callers n ++ [site] else g.callers n := by
  unfold addEdge hasEdge
  split <;> simp_all [callers, get_file]

/-- A site without edges gets each of its callees once, and is the last caller of each. -/
theorem edges_foldl_addEdge {g : CallGraph} {site : Statement} (h : g.callees site = [])
    (ms : List MethodName) :
    (∀ s, (ms.foldl (fun g m => g.addEdge site m) g).callees s =
      if site = s then ms.eraseDups else g.callees s) ∧
    ∀ n, (ms.foldl (fun g m => g.addEdge site m) g).callers n =
      if n ∈ ms then g.callers n ++ [site] else g.callers n := by
  induction ms using List.reverseRecOn with
  | nil =>
    refine ⟨fun s => ?_, fun n => rfl⟩
    split
    · next hs => exact hs ▸ h
    · rfl
  | append_singleton ms m ih =>
    rw [foldl_append, foldl_cons, foldl_nil]
    obtain ⟨hcallees, hcallers⟩ := ih
    refine ⟨fun s => ?_, fun n => ?_⟩
    · rw [callees_addEdge, hcallees, eraseDups_concat]
      split <;> rfl
    · rw [callers_addEdge, hcallees, if_pos rfl, hcallers]
      -- The edge to `m` is new unless `m` has come up before.
      by_cases hn : n ∈ ms
      · have hknown : ¬(m = n ∧ m ∉ ms.eraseDups) := by
          rintro ⟨rfl, hnew⟩
          exact hnew (mem_eraseDups.2 hn)
        rw [if_neg hknown, if_pos hn, if_pos (mem_append_left _ hn)]
      · by_cases hm : m = n
        · subst hm
          simp [hn]
        · simp [hn, hm, eq_comm]

/-- What the graph has after the edges of some sites, which are all different. -/
theorem edges_foldl_addSite (p : Program) {sites : List Statement} (h : sites.Nodup) :
    (∀ s, (sites.foldl (addSite p) empty).callees s =
      if s ∈ sites then (calleesIn p s).eraseDups else []) ∧
    ∀ m, (sites.foldl (addSite p) empty).callers m = sites.filter fun s => m ∈ calleesIn p s := by
  induction sites using List.reverseRecOn with
  | nil => exact ⟨fun s => get_empty s, fun m => get_empty m⟩
  | append_singleton sites site ih =>
    rw [List.nodup_append] at h
    have hnew : site ∉ sites := fun hmem => h.2.2 site hmem site mem_cons_self rfl
    obtain ⟨hcallees, hcallers⟩ := ih h.1
    rw [foldl_append, foldl_cons, foldl_nil]
    have hnone : (sites.foldl (addSite p) empty).callees site = [] := by
      rw [hcallees, if_neg hnew]
    obtain ⟨hcallees', hcallers'⟩ := edges_foldl_addEdge hnone (calleesIn p site)
    refine ⟨fun s => ?_, fun m => ?_⟩
    · rw [addSite, hcallees', hcallees]
      by_cases hs : site = s
      · subst hs
        simp
      · simp [hs, eq_comm]
    · rw [addSite, hcallers', hcallers, List.filter_append]
      by_cases hm : m ∈ calleesIn p site <;> simp [hm]

section Resolved

variable {d : Description} {p : Program}

/-- A call has the callees of the class hierarchy in the order of the classes, each once. -/
theorem callees_classHierarchy (h : d.resolve = .ok p) (site : Statement) :
    (classHierarchy p).callees site =
      if site ∈ p.invocations then (calleesIn p site).eraseDups else [] := by
  rw [classHierarchy_eq]
  exact (edges_foldl_addSite p (Program.ascending_invocations h).nodup).1 site

/-- A method has the calls that may call it in the order of statements. -/
theorem callers_classHierarchy (h : d.resolve = .ok p) (m : MethodName) :
    (classHierarchy p).callers m = p.invocations.filter fun site => m ∈ calleesIn p site := by
  rw [classHierarchy_eq]
  exact (edges_foldl_addSite p (Program.ascending_invocations h).nodup).2 m

end Resolved

end CallGraph

end DemandAlias
