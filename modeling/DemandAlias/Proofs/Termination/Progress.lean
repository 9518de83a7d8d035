import DemandAlias.Proofs.Termination.Tally

/-!
# The tally of a run

The tally of a run is that of all its solvers, with its own registrations, edges and
solvers among the facts. Passing on a message gains something or keeps what counts at the
level of the message (`Weighed.updates`); serving a queue and catching up with the call
graph make the tally drop (`Weighed.drops_serveSolver`, `Weighed.refreshSolver`).
-/

namespace DemandAlias

namespace Tally

variable {α : Type} {T T' : α → Tally} {f : α → α} {k : Nat}

theorem keeps_total_modify (as : List α) (i : Nat)
    (h : ∀ a, as[i]? = some a → (T a).Keeps k (T (f a))) :
    (total (as.map T)).Keeps k (total ((as.modify i f).map T)) := by
  induction as generalizing i with
  | nil =>
    rw [List.modify_nil]
    exact .refl k _
  | cons a _ ih =>
    cases i with
    | zero => exact (h a rfl).add (.refl k _)
    | succ i => exact (Keeps.refl k _).add (ih i h)

theorem dropsAt_total_modify {as : List α} {i : Nat} {a : α} (ha : as[i]? = some a)
    (h : (T a).DropsAt k (T (f a))) :
    (total (as.map T)).DropsAt k (total ((as.modify i f).map T)) := by
  induction as generalizing i with
  | nil => cases ha
  | cons _ _ ih =>
    cases i with
    | zero =>
      cases ha
      exact h.add_right _
    | succ => exact (ih ha).add_left _

theorem facts_total_congr {as : List α} (h : ∀ a, (T a).facts = (T' a).facts) :
    (total (as.map T)).facts = (total (as.map T')).facts := by
  induction as with
  | nil => rfl
  | cons a _ ih =>
    simp only [map_cons, total, add, h a, ih]

theorem facts_total_le_append (as : List Tally) (a : Tally) :
    (total as).facts ≤ (total (as ++ [a])).facts := by
  induction as with
  | nil => exact Nat.zero_le _
  | cons _ _ ih => exact Nat.add_le_add_left ih _

/-- Facts that are there already do not count against new ones. -/
theorem keeps_of_more {a b : Tally} {n m : Nat} (h : a.facts ≤ b.facts) (hlt : n < m) :
    (a.add { zero with facts := n }).Keeps k (b.add { zero with facts := m }) := by
  refine .inl (.inl ?_)
  simp only [add]
  omega

end Tally

namespace Run

open Tally

variable {ω : Type} [Weight ω]
variable {id : SolverId} {f : Solver ω → Solver ω}

/-- How far a run has come. -/
def tally (rank : ω → Nat) (r : Run ω) : Tally :=
  (total (r.solvers.toList.map (Solver.tally rank r.graph.size))).add
    { Tally.zero with facts := r.registered.size + r.graph.size + r.solvers.size }

/-- All weights are among those for which `P` holds. -/
def Weighed (P : ω → Prop) (r : Run ω) : Prop := ∀ ⦃id s⦄, r.solver? id = some s → s.Weighed P

variable {P : ω → Prop} {rank : ω → Nat} {r r' : Run ω} {k : Nat}

/-! ### Changing a solver -/

omit [Weight ω] in
theorem solvers_modifySolver (r : Run ω) (id : SolverId) (f : Solver ω → Solver ω) :
    (r.modifySolver id f).solvers.toList = r.solvers.toList.modify id.index f :=
  Array.toList_modify

theorem keeps_modifySolver (h : ∀ s, r.solver? id = some s →
      (s.tally rank r.graph.size).Keeps k ((f s).tally rank r.graph.size)) :
    (r.tally rank).Keeps k ((r.modifySolver id f).tally rank) := by
  unfold tally
  rw [solvers_modifySolver, size_modifySolver]
  refine Keeps.add (keeps_total_modify _ _ fun s hs => h s ?_) (.refl k _)
  rwa [Array.getElem?_toList] at hs

theorem dropsAt_modifySolver {s : Solver ω} (hs : r.solver? id = some s)
    (h : (s.tally rank r.graph.size).DropsAt k ((f s).tally rank r.graph.size)) :
    (r.tally rank).DropsAt k ((r.modifySolver id f).tally rank) := by
  unfold tally
  rw [solvers_modifySolver, size_modifySolver]
  refine DropsAt.add_right (dropsAt_total_modify (a := s) ?_ h) _
  rwa [Array.getElem?_toList]

/-- If something is gone from a solver before it changes, the same is gone from the run. -/
theorem exists_dropsAt_modifySolver {s s₀ : Solver ω} (hs : r.solver? id = some s)
    (hdrops : (s.tally rank r.graph.size).DropsAt k (s₀.tally rank r.graph.size))
    (hkeeps : (s₀.tally rank r.graph.size).Keeps k ((f s).tally rank r.graph.size)) :
    ∃ a, (r.tally rank).DropsAt k a ∧ a.Keeps k ((r.modifySolver id f).tally rank) := by
  obtain ⟨r₀, hr₀⟩ : ∃ r₀, r₀ = r.modifySolver id fun _ => s₀ := ⟨_, rfl⟩
  have hs₀ : r₀.solver? id = some s₀ := by
    rw [hr₀, solver?_modifySolver, if_pos rfl, hs]
    rfl
  have heq : r.modifySolver id f = r₀.modifySolver id fun _ => f s := by
    rw [hr₀, modifySolver_modifySolver]
    exact modifySolver_congr fun s₁ hs₁ => by rw [some.inj (hs₁.symm.trans hs)]
  refine ⟨r₀.tally rank, hr₀ ▸ dropsAt_modifySolver hs hdrops, ?_⟩
  rw [heq]
  refine keeps_modifySolver fun s₁ hs₁ => ?_
  rw [some.inj (hs₁.symm.trans hs₀), hr₀]
  exact hkeeps

omit [Weight ω] in
theorem Weighed.modifySolver (h : r.Weighed P) (hf : ∀ s, r.solver? id = some s → (f s).Weighed P) :
    (r.modifySolver id f).Weighed P := by
  intro id' s' hs'
  rcases solver?_modifySolver_cases hs' with ⟨s, rfl, hs, rfl⟩ | ⟨-, hs'⟩
  · exact hf s hs
  · exact h hs'

variable [DecidableEq ω]

/-! ### Messages -/

/-- What a run is made to do for its solvers gains something, or keeps all that counts at
    the level of the changes of the solvers. -/
theorem Weighed.updates {A : Change ω → Prop} (hP : Settles P rank)
    (hA : ∀ x, A x → x.Mild k ∧ x.Neutral) (h : r.Weighed P) (hu : Updates A r r') :
    r'.Weighed P ∧ (r.tally rank).Keeps k (r'.tally rank) := by
  induction hu with
  | refl => exact ⟨h, .refl k _⟩
  | @change _ _ _ x hx ih =>
    obtain ⟨hw, hk⟩ := ih
    obtain ⟨hmild, hneutral⟩ := hA x hx
    have hweighs := hneutral.weighs hP
    exact ⟨hw.modifySolver fun s hs => (hw hs).make hP hweighs,
      hk.trans (keeps_modifySolver fun s hs => (hw hs).keeps_make hP hweighs hmild)⟩
  | @create _ _ _ _ ih =>
    obtain ⟨hw, hk⟩ := ih
    refine ⟨fun id s hs => ?_, hk.trans ?_⟩
    · rw [solver?_create] at hs
      split at hs
      · cases hs
        exact Solver.weighed_start hP ..
      · exact hw hs
    · simp only [tally, create, Array.toList_push, map_append, map_cons, List.map_nil,
        Array.size_push]
      exact keeps_of_more (facts_total_le_append _ _) (Nat.lt_succ_self _)
  | @register r' _ x hx _ id xs hxs ih =>
    obtain ⟨hw, hk⟩ := ih
    have hmakes : ∀ s, r'.solver? id = some s → (s.makeAll xs).Weighed P ∧
        (s.tally rank r'.graph.size).Keeps 0 ((s.makeAll xs).tally rank r'.graph.size) :=
      fun s hs => (hw hs).makes hP (fun x hx => ⟨hx.weighs, x.mild_zero⟩)
        (Solver.makes_makeAll s hxs) _
    refine ⟨Weighed.modifySolver hw fun s hs => (hmakes s hs).1, hk.trans ?_⟩
    -- The registration itself is gained.
    have hsolvers := keeps_total_modify (k := 0) (T := Solver.tally rank r'.graph.size)
      (f := fun s => s.makeAll xs) r'.solvers.toList id.index fun s hs =>
        (hmakes s (by rwa [Array.getElem?_toList] at hs)).2
    unfold tally
    rw [solvers_modifySolver, size_modifySolver]
    refine keeps_of_more hsolvers.facts_le ?_
    simp only [Run.modifySolver, Std.HashSet.size_insert, if_neg hx]
    omega
  | @addEdge _ _ _ _ hm ih =>
    obtain ⟨hw, hk⟩ := ih
    refine ⟨hw, hk.trans ?_⟩
    refine keeps_of_more (Nat.le_of_eq (facts_total_congr fun s => rfl)) ?_
    simp only [Run.addEdge, CallGraph.addEdge, hm, Bool.false_eq_true, if_false]
    omega
  | note _ _ _ _ _ _ ih => exact ih

/-! ### Steps -/

/-- Serving a queue, with the messages passed on, makes the tally drop. -/
theorem Weighed.drops_serveSolver [ZeroFree ω] (hP : Settles P rank) {c : Setting ω}
    (hc : c.weighing.ZeroFree) (hkept : r.Kept c Nothing) (h : r.Weighed P) {s : Solver ω}
    (hs : r.solver? id = some s) (hrule : ∀ d calls, s.calls.poll? = some (d, calls) →
      ∀ x ∈ d.listener.changes c s.bottom d.transition d.weight, x.Weighs P) {queue : WorkQueue}
    (hwork : s.hasWork queue = true) :
    (r.serveSolver c id queue).Weighed P ∧
      (r.tally rank).Drops ((r.serveSolver c id queue).tally rank) := by
  obtain ⟨k, s₀, hserves⟩ :=
    (h hs).serves hP r.graph.size (c := c) (g := r.graph) (hkept.quiet hs) hrule hwork
  -- First something is taken away, then the solver makes its changes, and at last its
  -- messages are passed on.
  obtain ⟨a, hdrops, hkeeps⟩ := exists_dropsAt_modifySolver
    (f := fun s => { s.serveQueue c r.graph queue with outbox := [] }) hs hserves.drops hserves.keeps
  have hweighed : (r.takeOut c id queue).Weighed P := by
    refine Weighed.modifySolver h fun s₁ hs₁ => ?_
    rw [some.inj (hs₁.symm.trans hs)]
    exact ⟨hserves.weighed.calls, hserves.weighed.fields, hserves.weighed.popMatch⟩
  obtain ⟨hw, hk⟩ := hweighed.updates hP (fun x hx => hx)
    (updates_serveSolver hc hkept hs hserves.messages)
  have htake : a.Keeps k ((r.takeOut c id queue).tally rank) := hkeeps
  exact ⟨hw, hdrops.trans_keeps (htake.trans hk)⟩

/-- Catching up with the call graph keeps the tally or makes it drop. -/
theorem Weighed.refreshSolver (hP : Settles P rank) {c : Setting ω} (h : r.Weighed P)
    (hr' : r' = r.modifySolver id fun s => s.refresh c r.graph) :
    r'.Weighed P ∧ (r'.tally rank = r.tally rank ∨ (r.tally rank).Drops (r'.tally rank)) := by
  subst hr'
  refine ⟨h.modifySolver fun s hs => ((h hs).refresh hP c r.graph).1, ?_⟩
  by_cases hsame : ∀ s, r.solver? id = some s → s.refresh c r.graph = s
  · rw [modifySolver_eq_self hsame]
    exact .inl rfl
  · simp only [Classical.not_forall] at hsame
    obtain ⟨s, hs, hne⟩ := hsame
    obtain ⟨s₀, hdrops, hkeeps⟩ := ((h hs).refresh hP c r.graph).2.resolve_left hne
    obtain ⟨a, hdrops', hkeeps'⟩ := exists_dropsAt_modifySolver
      (f := fun s => s.refresh c r.graph) hs hdrops hkeeps
    exact .inr (hdrops'.trans_keeps hkeeps')

end Run

end DemandAlias
