import DemandAlias.Proofs.Context.Exactness

/-!
# Evaluating answers

The weights that a forward query reports can be read off the listing of its run, if all
transitions of the automaton of calls lead to the bottom: the object is never passed to a
call. The transitions of a solver can always be read off (`Run.ListedBy.exists_solver`).
-/

namespace DemandAlias

/-- A description whose classes and methods are given in order. -/
theorem Description.resolve_inOrder {d : Description} {classes : List Class}
    {methods : List Method} (hclasses : resolveClasses d.classes = .ok classes)
    (hmethods : resolveMethods (d.context (.ofMethods d.methods)) [] d.methods = .ok methods)
    (hunreachable : d.unreachable = [])
    (hclassOrder : classes.Pairwise fun a b => (compare a.name b.name).isLE)
    (hmethodOrder : methods.Pairwise fun a b => (compare a.name b.name).isLE) :
    d.resolve = .ok { classes, methods, unreachable := [] } := by
  rw [resolve, hclasses, hmethods, hunreachable]
  simp [bind, Except.bind, sortedBy, sortedUnique, sorted, dropRepeats,
    List.mergeSort_of_pairwise hclassOrder, List.mergeSort_of_pairwise hmethodOrder]

theorem Automaton.ListedBy.transitions {σ Λ ω κ : Type} [DecidableEq σ] [DecidableEq Λ]
    [Hashable σ] [Hashable Λ] {a : Automaton σ Λ ω κ} {l : Automaton.Listing σ Λ ω κ}
    (h : a.ListedBy l) : a.transitions = l.transitions := by
  rw [Automaton.transitions, h.stored, Automaton.Listing.transitionsOf, List.filter_eq_self]
  simp [Transition.topics]

namespace Solver

variable {ω : Type}

namespace Listing

/-- All transitions listed lead from other states to the bottom. -/
def isFlat (l : Listing ω) : Bool :=
  l.calls.transitions.all fun t => t.target = .bottom l.seed ∧ t.source ≠ .bottom l.seed

/-- The weight listed of a node. -/
def weightAt? (l : Listing ω) (n : Node) : Option ω :=
  if n ∈ l.reached then l.calls.weight? (callAt n (.bottom l.seed)) else none

/-- Whether the node holds the tracked object itself. -/
def holdsDirectly (l : Listing ω) (n : Node) : Bool :=
  (l.fields.transitionsOf (.out (.located n))).any fun t => t.label == .epsilon

end Listing

theorem ListedBy.holdsDirectly {s : Solver ω} {l : Listing ω} (h : s.ListedBy l) (n : Node) :
    s.holdsDirectly n = l.holdsDirectly n := by
  rw [Solver.holdsDirectly, h.fields.stored, Listing.holdsDirectly]

end Solver

namespace Run

variable {ω : Type}

section

variable {r : Run ω} {l : Listing ω} (h : r.ListedBy l) {id : SolverId}
include h

/-- A solver of which something is found in the listing of its run. -/
theorem ListedBy.exists_solver {P : Solver.Listing ω → Bool} (hP : (l.solver? id).any P = true) :
    ∃ s l', r.solver? id = some s ∧ s.ListedBy l' ∧ P l' = true := by
  have hrel := h.solver id
  generalize r.solver? id = s, l.solver? id = l' at hrel hP ⊢
  cases hrel with
  | none => cases hP
  | some hs => exact ⟨_, _, rfl, hs, hP⟩

/-- What is found among the call transitions listed of a solver. -/
theorem ListedBy.exists_calls {P : List CallTransition → Bool}
    (hP : ((l.solver? id).any fun s => P s.calls.transitions) = true) :
    ∃ s, r.solver? id = some s ∧ P s.calls.transitions = true := by
  obtain ⟨s, l', hs, hlisted, hP⟩ := h.exists_solver hP
  rw [← hlisted.calls.transitions] at hP
  exact ⟨s, hs, hP⟩

theorem ListedBy.has_call {t : CallTransition}
    (ht : (l.solver? id).any fun s => s.calls.transitions.contains t) :
    r.Has id (t ∈ ·.calls.transitions) :=
  (h.exists_calls (P := (·.contains t)) ht).imp fun _ => .imp_right List.contains_iff_mem.1

theorem ListedBy.lacks_call {t : CallTransition}
    (ht : (l.solver? id).any fun s => !s.calls.transitions.contains t) :
    r.Has id (t ∉ ·.calls.transitions) :=
  (h.exists_calls (P := (!·.contains t)) ht).imp fun _ => .imp_right fun ht => by simpa using ht

end

variable [Weight ω] [DecidableEq ω] [ZeroFree ω] [ZeroCombine ω] {c : Setting ω}

/-- If the listing of its run converges, a forward query is answered in time by the solver
    listed, with the weights listed if nothing is passed to a call. -/
theorem exists_solver_of_listing (hc : c.weighing.ZeroFree) {q : ForwardQuery} {k : Nat}
    (hphase : ((Listing.beginForward c q).advance c 0 k).phase = .converged) (hle : k ≤ ample)
    {P : Solver.Listing ω → Bool}
    (hP : ((Listing.beginForward c q).advance c 0 k).solver? ⟨0⟩ |>.any fun l => l.isFlat && P l)
    (hone : combine (one : ω) one = one) : ∃ result s l, P l = true ∧
      (Session.solveForward (.start c) q).1 = .ok result ∧ result.timedOut = false ∧
      (((Session.start c).beginForward q).finish c).solver? ⟨0⟩ = some s ∧
      (((Session.start c).beginForward q).finish c).phase = .converged ∧
      result.table = tableOf c s q ∧ s.ListedBy l ∧
      ∀ n v w, l.weightAt? n = some w → extend one w = v →
        combine v v = v → s.nodeWeights[n]? = some v := by
  have hlisted := (listedBy_beginForward q).finish hphase hle
  obtain ⟨result, hresult, hconverged⟩ := exists_forwardResult hphase hle
  obtain ⟨hphase', hforward⟩ := Pushdown.eq_forwardResult_of_endForward hresult hconverged
  obtain ⟨ho, -⟩ := orderly_beginForward c (Session.start c).graph q
  obtain ⟨hor, hgrows⟩ := ho.advance hc 0 ample
  obtain ⟨s, hs, hsolver⟩ := hgrows.solvers
    ((solver?_beginForward ⟨c, (Session.start c).graph⟩ q ⟨0⟩).trans (if_pos rfl))
  obtain ⟨_, l, hs', hsl, hl⟩ := hlisted.exists_solver hP
  cases hs.symm.trans hs'
  obtain ⟨hflat, hl⟩ := Bool.and_eq_true_iff.1 hl
  refine ⟨result, s, l, hl, hresult, hconverged, hs', hphase',
    congrArg ForwardResult.table (hforward s hs'), hsl, fun n v w hw => ?_⟩
  obtain ⟨hn, hw⟩ : n ∈ l.reached ∧ l.calls.weight? (callAt n (.bottom l.seed)) = some w := by
    simpa [Solver.Listing.weightAt?] using hw
  have hsound : s.Sound := (hor.kept hs).sound
  have hbottom : s.bottom = .bottom l.seed := by rw [bottom, hsl.seed]
  refine Solver.nodeWeights_of_flat hsound.calls ?_ (fun t ht => ?_) hone ?_ ?_
  · rw [hsolver.final, bottom, hsolver.seed]
    exact (Automaton.mem_final_seeded ..).2 rfl
  · have hall := List.all_eq_true.1 hflat
    rw [hbottom]
    refine of_decide_eq_true (hall t ?_)
    rw [Automaton.transitions, hsl.calls.stored] at ht
    exact (mem_filter.1 ht).1
  · show n ∈ s.reached.toList
    rw [hsl.reached]
    exact hn
  · rw [hbottom, hsl.calls.weight]
    exact hw

end Run

end DemandAlias
