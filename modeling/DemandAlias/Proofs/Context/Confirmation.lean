import DemandAlias.Proofs.Context.Exactness
import DemandAlias.Proofs.Context.Tracking
import DemandAlias.Proofs.Search.Answer

/-!
# Answers confirmed in the other direction

In a program that does not access fields, what a backward query finds is confirmed by the
forward query of the allocation found: the object gets to where the backward query was
asked (`mem_nodes_of_mem_allocations`). The run of a backward query has its own solver and
those that follow the allocations found, and nothing else (`closed_confirming`).
-/

namespace DemandAlias.Pushdown

open Solver

/-! ### The run of a backward query -/

/-- What the run of a backward query at `goal` may have if no statement accesses a field, in
    the words of the object created at `seed`. -/
def confirming (p : Program) (seed goal : Node) : RunBound Reach where
  graph := .classHierarchy p
  query q := q = .backward ⟨goal⟩ ∨ ∃ a, q = .forward a
  solver _ q := match q with
    | .backward q => tracked p (.classHierarchy p) seed q.node
    | .forward a => stacked p (.classHierarchy p) a.node
  edge x e := e ∈ x.edges (.classHierarchy p)
  allocation q a := q = .backward ⟨goal⟩ ∧
    (a.node = seed → Comes p (.classHierarchy p) seed goal seed)
  subscriber _ _ k := k = .aliases

section Run

variable {c : Setting Reach} (hp : c.program.IsLaidOut) (hnames : c.program.NamesDistinct)
  (hstatements : ∀ s ∈ c.program.statements, s.accessesField = false)
  (hresolved : c.options.onTheFly = false)

include hp hnames hstatements hresolved

theorem closed_confirming (seed : Node) {goal : Node}
    (hgoal : goal.stmt ∈ c.program.statements) : (confirming c.program seed goal).Closed c where
  solver_mono _ q := ⟨id, id, id, id, id, id⟩
  subscriber_mono _ := id
  start {N q} hq := by
    cases q with
    | backward q =>
      obtain rfl : q = ⟨goal⟩ := by simpa [confirming] using hq
      exact ⟨.inl ⟨goal, _, rfl, hp.places_of_mem_statements hnames hgoal,
        fun _ => .inl ⟨rfl, fun stack => ⟨stack, .refl⟩⟩⟩, ⟨goal, rfl⟩, .inl rfl, .inl rfl⟩
    | forward a =>
      exact ⟨.inl ⟨a.node, _, rfl, accessesField_of_allocates a.allocates, .inl ⟨rfl, .refl⟩⟩,
        ⟨a.node, rfl⟩, .inl rfl, .inl rfl⟩
  closed {N q} _ _ {g s} hg hdirection hseed := by
    cases q with
    | backward =>
      have h := closed_tracked hp hnames hstatements hdirection seed
      rw [hseed] at h
      exact h.of_edges hg
    | forward =>
      have h := closed_stacked (g := .classHierarchy c.program) hp hstatements hdirection
      rw [hseed] at h
      exact h.of_edges hg
  message {N sender q m size} hN hq hm _ := by
    cases q with
    | backward q =>
      obtain rfl : q = ⟨goal⟩ := by simpa [confirming] using hN.query hq
      rcases hm with ⟨x, rfl⟩ | ⟨n, rfl⟩ | ⟨n, rfl, hcomes⟩
      · intro hfly
        rw [hresolved] at hfly
        cases hfly
      · trivial
      · exact fun hn => ⟨fun _ => ⟨rfl, fun hseed => hseed ▸ hcomes hseed⟩, fun hne => absurd rfl hne⟩
    | forward =>
      rcases hm with ⟨x, rfl⟩ | ⟨n, rfl, -⟩
      · intro hfly
        rw [hresolved] at hfly
        cases hfly
      · trivial
  notice {N q k a size} _ _ hk _ _ := by
    obtain rfl : k = .aliases := hk
    exact .inr ⟨a, rfl⟩

section

variable (hweighing : c.weighing = .reach) {q : BackwardQuery}
  (hq : q.node.stmt ∈ c.program.statements) {r : Run Reach}
  (hr : r = ((Session.start c).beginBackward q).finish c)
include hweighing hq hr

/-- The run of a backward query stays within the bound. -/
theorem within_confirming (seed : Node) : r.Within (confirming c.program seed q.node) := by
  have hzero : c.weighing.ZeroFree := hweighing ▸ zeroFree_reach
  have hstart : Session.start c = ⟨c, .classHierarchy c.program⟩ := by
    simp [Session.start, hresolved]
  rw [hstart] at hr
  have hb := closed_confirming hp hnames hstatements hresolved seed hq
  have hfirst : (Session.begin ⟨c, .classHierarchy c.program⟩ (.backward q)).Within
      (confirming c.program seed q.node) :=
    Run.within_begin _ hb.toPassing rfl (fun he => he) (.inl rfl) fun _ _ _ => rfl
  subst hr
  exact (Run.maintained_within hb hzero).advance hzero
    (Run.orderly_beginBackward c (.classHierarchy c.program) q).1 hfirst 0 Run.ample

/-- An object that a backward query finds gets to where it was asked. -/
theorem comes_of_mem_allocations {id : SolverId} {a : ForwardQuery}
    (ha : a ∈ r.allocations.get id) :
    Comes c.program (.classHierarchy c.program) a.node q.node a.node := by
  obtain ⟨-, -, -, hcomes⟩ :=
    (within_confirming hp hnames hstatements hresolved hweighing hq hr a.node).allocation ha
  exact hcomes rfl

end

end Run

/-! ### The answer -/

/-- Without access to fields, a forward query from an allocation that a backward query finds
    comes to where the backward query was asked. -/
theorem mem_nodes_of_mem_allocations {d : Description} {p : Program} (hp : d.resolve = .ok p)
    (hfields : ∀ s ∈ p.statements, s.accessesField = false) (hunreachable : p.unreachable = [])
    (options : Options) (hresolved : options.onTheFly = false) (q : BackwardQuery)
    (hq : q.node.stmt ∈ p.statements) {result : BackwardResult}
    (hresult : (Session.solveBackward (.start ⟨p, .everything, .reach, options⟩) q).1 = .ok result)
    (hconverged : result.timedOut = false) {a : ForwardQuery} (ha : a ∈ result.allocations)
    {answer : ForwardResult Reach}
    (hanswer : (Session.solveForward (.start ⟨p, .everything, .reach, options⟩) a).1 = .ok answer)
    (hconverged' : answer.timedOut = false) : q.node ∈ answer.nodes := by
  obtain ⟨c, hc⟩ : ∃ c : Setting Reach, c = ⟨p, .everything, .reach, options⟩ := ⟨_, rfl⟩
  rw [← hc] at hresult hanswer
  obtain rfl : p = c.program := by rw [hc]
  have hresolved' : c.options.onTheFly = false := by rw [hc]; exact hresolved
  have hweighing : c.weighing = .reach := by rw [hc]
  have hlaid := isLaidOut_of_resolve hp
  -- The allocation found gets to the goal.
  obtain ⟨-, hallocations⟩ := Search.mem_allocations_of_endBackward hresult hconverged
  obtain ⟨stack, hsteps⟩ := comes_of_mem_allocations hlaid
    (Description.namesDistinct_of_resolve hp) hfields hresolved' hweighing hq rfl
    ((hallocations a).1 ha)
  -- So the solver of the forward query finds the goal.
  obtain ⟨hphase, hnodes⟩ := nodes_of_endForward hanswer hconverged'
  obtain ⟨s, sent, hs, hdirection, hseed, hfinished, hwithin, hfinal, hfirst⟩ :=
    exists_solver_of_converged hlaid hfields hunreachable hresolved' hweighing a rfl hphase
  rw [hnodes s hs]
  rw [← hseed] at hwithin hsteps hfirst
  have hbottom : s.bottom ∈ s.calls.final := (hfinal _).2 (by rw [bottom, hseed])
  exact (hfirst.of_steps hfinished hdirection (by rw [hc]) hwithin hsteps).mem_table hfinished
    hweighing hbottom a

/-! ### An example -/

namespace Passing

/-- What does the call return? -/
def asked : BackwardQuery := ⟨⟨stmt 2, var "y"⟩⟩

theorem converges_asked : ((Run.Listing.beginBackward setting asked).advance setting 0 1000).phase =
    .converged := by
  decide +kernel

theorem found_asked : query ∈ valuesOf
    ((Run.Listing.beginBackward setting asked).advance setting 0 1000).found ⟨0⟩ := by
  decide +kernel

end Passing

/-- What a call returns is found to be what was passed to it, which is found to be returned. -/
theorem mem_nodes_asked :
    ∃ result answer, (Session.solveBackward (.start Passing.setting) Passing.asked).1 = .ok result ∧
      result.timedOut = false ∧ Passing.query ∈ result.allocations ∧
      (Session.solveForward (.start Passing.setting) Passing.query).1 = .ok answer ∧
      answer.timedOut = false ∧ ⟨Passing.stmt 2, Passing.var "y"⟩ ∈ answer.nodes := by
  obtain ⟨result, hresult, hconverged, hfound⟩ :=
    Run.exists_backwardResult Passing.converges_asked (by decide)
  obtain ⟨answer, hanswer, hconverged'⟩ := Run.exists_forwardResult Passing.converges (by decide)
  have ha := (hfound Passing.query).2 Passing.found_asked
  refine ⟨result, answer, hresult, hconverged, ha, hanswer, hconverged', ?_⟩
  exact mem_nodes_of_mem_allocations Passing.resolve_description (by decide +kernel) rfl {} rfl
    Passing.asked (by decide +kernel) hresult hconverged ha hanswer hconverged'

end DemandAlias.Pushdown
