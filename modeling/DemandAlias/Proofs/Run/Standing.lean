import DemandAlias.Proofs.Run.Updating

/-!
# How a run stands

Most of what a message brings about leaves alone how the run stands: whether it goes on, which
allocations were found, and what its solvers have to say (`SameStanding`). Only a message that a
value is created adds to the allocations, each of them once (`Distinct`), and only a message from
an unreachable method makes a run fail. So a run within a bound that allows no such message does
not fail (`Within.not_failed_advance`).
-/

namespace DemandAlias

namespace Run

variable {ω : Type} [Weight ω] [DecidableEq ω] {r r' : Run ω}

/-- The run goes on as before, with solvers that have nothing more to say, some of which may be
    new. -/
structure GoesOn (r r' : Run ω) : Prop where
  phase : r'.phase = r.phase
  steps : r'.steps = r.steps
  size_le : r.solvers.size ≤ r'.solvers.size
  solvers : ∀ {id s'}, r'.solver? id = some s' →
    (∃ s, r.solver? id = some s ∧ s.Makes Change.IsSilent s') ∨ r.solvers.size ≤ id.index ∧
      ∃ direction seed, (Solver.start id direction seed).Makes Change.IsSilent s'

theorem GoesOn.trans {r'' : Run ω} (h : GoesOn r r') (h' : GoesOn r' r'') :
    GoesOn r r'' where
  phase := h'.phase.trans h.phase
  steps := h'.steps.trans h.steps
  size_le := Nat.le_trans h.size_le h'.size_le
  solvers hs'' := by
    rcases h'.solvers hs'' with ⟨s', hs', hmakes'⟩ | ⟨hnew, hstart⟩
    · rcases h.solvers hs' with ⟨s, hs, hmakes⟩ | ⟨hnew, direction, seed, hmakes⟩
      · exact .inl ⟨s, hs, hmakes.trans hmakes'⟩
      · exact .inr ⟨hnew, direction, seed, hmakes.trans hmakes'⟩
    · exact .inr ⟨Nat.le_trans h.size_le hnew, hstart⟩

/-- Besides, the same allocations were found. -/
structure SameStanding (r r' : Run ω) : Prop extends GoesOn r r' where
  allocations : r'.allocations = r.allocations

namespace SameStanding

/-- What else is noted does not matter. -/
theorem of_solvers_eq (hsolvers : r'.solvers = r.solvers) (hphase : r'.phase = r.phase := by rfl)
    (hsteps : r'.steps = r.steps := by rfl)
    (hallocations : r'.allocations = r.allocations := by rfl) : SameStanding r r' where
  phase := hphase
  steps := hsteps
  allocations := hallocations
  size_le := Nat.le_of_eq (congrArg Array.size hsolvers.symm)
  solvers {id s'} hs' := .inl ⟨s', by rwa [solver?, ← hsolvers], .refl⟩

theorem refl (r : Run ω) : SameStanding r r := of_solvers_eq rfl

theorem trans {r'' : Run ω} (h : SameStanding r r') (h' : SameStanding r' r'') :
    SameStanding r r'' :=
  ⟨h.toGoesOn.trans h'.toGoesOn, h'.allocations.trans h.allocations⟩

end SameStanding

theorem standing_modifySolver (r : Run ω) (id : SolverId) {xs : List (Change ω)}
    (hxs : ∀ x ∈ xs, x.IsSilent) : SameStanding r (r.modifySolver id fun s => s.makeAll xs) where
  phase := rfl
  steps := rfl
  allocations := rfl
  size_le := Nat.le_of_eq (size_modifySolver ..).symm
  solvers {id' s'} hs' := by
    rcases solver?_modifySolver_cases hs' with ⟨s, rfl, hs, rfl⟩ | ⟨-, hs'⟩
    · exact .inl ⟨s, hs, Solver.makes_makeAll s hxs⟩
    · exact .inl ⟨s', hs', .refl⟩

theorem passage_standing : Passage Change.IsSilent False (SameStanding (ω := ω)) where
  refl := .refl
  trans := .trans
  change r id _ hxs := standing_modifySolver r id hxs
  create r q _ := by
    refine ⟨⟨rfl, rfl, Nat.le_of_lt (by simp [create]), fun {id s'} hs' => ?_⟩, rfl⟩
    rw [solver?_create] at hs'
    split at hs'
    · next hnew =>
      obtain ⟨i⟩ := id
      cases hs'
      exact .inr ⟨Nat.le_of_eq hnew.symm, q.direction, q.node, hnew ▸ .refl⟩
    · exact .inl ⟨s', hs', .refl⟩
  register r id x _ xs hxs := by
    unfold register
    split
    · exact .refl r
    · have hnote : SameStanding r { r with registered := r.registered.insert x } :=
        .of_solvers_eq rfl
      exact hnote.trans (standing_modifySolver _ id fun x hx => (hxs x hx).2)
  addEdge _ _ _ := .of_solvers_eq rfl
  note _ _ _ _ := .of_solvers_eq rfl

/-- Messages other than those about values and unreachable methods change nothing about how the
    run stands. -/
theorem standing_handle (c : Setting ω) (r : Run ω) (sender : SolverId) {m : Message}
    (hvalue : ∀ n l q, m ≠ .allocation n l q) (hreached : ∀ n, m ≠ .unreachable n) :
    SameStanding r (r.handle c sender m) :=
  passage_standing.handle r c (fun _ _ hx => hx) (n := 0) False.elim hvalue hreached

/-- A value that is created is added to the allocations once, if it is the one asked for. -/
theorem handleAllocation_standing (p : Program) (r : Run ω) (sender : SolverId) (node : Node)
    (label : Field) (continuation : State) :
    SameStanding r (r.handleAllocation p sender node label continuation) ∨
      ∃ a, a ∉ r.allocations.get sender ∧
        SameStanding { r with allocations := r.allocations.file sender a }
          (r.handleAllocation p sender node label continuation) := by
  unfold handleAllocation
  split
  · exact .inl (.refl r)
  · next a ha =>
    split
    · unfold found
      split
      · exact .inl (.refl r)
      · next hnew =>
        exact .inr ⟨a, fun hmem => hnew (List.contains_iff_mem.2 hmem),
          passage_standing.foldl _ fun r k _ =>
            passage_standing.notify p r (n := 0) False.elim a⟩
    · exact .inl (passage_standing.storesOf r a sender label continuation)

/-- Only a message from an unreachable method keeps a run from going on. -/
theorem goesOn_handle (c : Setting ω) (r : Run ω) (sender : SolverId) {m : Message}
    (hreached : ∀ n, m ≠ .unreachable n) : GoesOn r (r.handle c sender m) := by
  by_cases hvalue : ∃ n l q, m = .allocation n l q
  · obtain ⟨n, l, q, rfl⟩ := hvalue
    rcases handleAllocation_standing c.program r sender n l q with h | ⟨_, -, h⟩
    · exact h.toGoesOn
    · exact { h with }
  · have hother := standing_handle c r sender (fun n l q heq => hvalue ⟨n, l, q, heq⟩) hreached
    exact hother.toGoesOn

/-! ### Allocations -/

/-- No solver has found an allocation twice. -/
def Distinct (r : Run ω) : Prop := ∀ id, (r.allocations.get id).Nodup

theorem Distinct.of_standing (h : r.Distinct) (hr : SameStanding r r') : r'.Distinct := by
  rw [Distinct, hr.allocations]
  exact h

omit [Weight ω] [DecidableEq ω] in
theorem Distinct.file (h : r.Distinct) {id : SolverId} {a : ForwardQuery}
    (ha : a ∉ r.allocations.get id) :
    Distinct { r with allocations := r.allocations.file id a } := by
  intro id'
  rw [get_file]
  split
  · next heq =>
    subst heq
    exact List.nodup_append.2 ⟨h id, List.pairwise_singleton .., fun b hb b' hb' heq =>
      ha (mem_singleton.1 hb' ▸ heq ▸ hb)⟩
  · exact h id'

theorem Distinct.handle (h : r.Distinct) (c : Setting ω) (sender : SolverId) (m : Message) :
    (r.handle c sender m).Distinct := by
  cases m with
  | allocation n l q =>
    rcases handleAllocation_standing c.program r sender n l q with hr | ⟨a, ha, hr⟩
    · exact h.of_standing hr
    · exact (h.file ha).of_standing hr
  | unreachable => exact h
  | _ => exact h.of_standing (standing_handle c r sender (by simp) (by simp))

theorem maintained_distinct (c : Setting ω) : Maintained c (Distinct (ω := ω)) where
  clock h _ _ := h
  refresh _ h _ := h
  serve {r} _ h id s hs queue := by
    rw [serveSolver_eq hs]
    exact List.foldlRecOn (motive := Distinct) _ _ h fun r hr m _ => hr.handle c id m

theorem standing_begin (session : Session ω) (q : Query) :
    SameStanding { graph := session.graph } (session.begin q) := passage_standing.start session q

/-! ### Failure -/

variable [ZeroFree ω] {c : Setting ω} {b : RunBound ω} {r : Run ω}

section

variable (hb : b.Closed c) (hnone : ∀ {N q n}, ¬(b.solver N q).message (.unreachable n))
  (hc : c.weighing.ZeroFree)
include hb hnone hc

/-- Serving a queue does not make a run fail that stays clear of unreachable methods. -/
theorem Within.phase_serveSolver (h : r.Kept c Nothing) (hw : r.Within b) {id : SolverId}
    {s : Solver ω} (hs : r.solver? id = some s) (queue : WorkQueue) :
    (r.serveSolver c id queue).phase = r.phase := by
  obtain ⟨q, hq⟩ := hw.named hs
  obtain ⟨hseed, hdirection⟩ := (h.ids hq).of_solver? hs
  have hclosed := hb.closed (hw.admits h.toCore) (hw.query hq) hw.edge hdirection hseed
  have hserved := (hw.solver hq hs).serveQueue hc hclosed (h.kept hs).sound queue
  rw [serveSolver_eq hs]
  -- The messages are those the solver has sent meanwhile, which are within the bound.
  refine List.foldlRecOn (motive := fun r' : Run ω => r'.phase = r.phase) _ _ rfl
    fun r' hr' m hm => ?_
  rw [(goesOn_handle c r' id fun n heq => ?_).phase, hr']
  exact hnone (heq ▸ hserved.message (mem_reverse.1 hm))

/-- A tick does not make such a run fail. -/
theorem Within.not_failed_tick (ho : r.Orderly c) (hw : r.Within b) (hfailed : ¬r.Failed)
    (elapsed : Nat) : ¬(r.tick c elapsed).Failed := by
  by_cases hrunning : r.phase = .running
  · rcases tick_cases c elapsed hrunning with
      ⟨-, heq⟩ | ⟨-, -, heq⟩ | ⟨s, -, r₁, hr₁, hs, hend⟩
    · rw [heq, endRound]
      split
      · exact hfailed
      · exact not_failed rfl
    · rw [heq]
      exact hfailed
    have hw₁ : r₁.Within b := hr₁ ▸ hw.refreshSolver hb ho.toCore _
    have ho₁ : r₁.Orderly c := hr₁ ▸ (ho.refreshSolver hrunning).orderly
    have hrunning₁ : r₁.phase = .running := by rw [hr₁]; exact hrunning
    rcases hend with ⟨-, heq⟩ | ⟨-, heq⟩ | ⟨queue, -, heq⟩
    · rw [heq]
      exact not_failed hrunning₁
    · rw [heq]
      exact not_failed rfl
    · have hcount : r₁.countStep.Within b := hw₁.clock
      have hphase := hcount.phase_serveSolver hb hnone hc ho₁.countStep.orderly.toKept hs queue
      rw [heq]
      exact not_failed (hphase.trans hrunning₁)
  · rw [tick_of_not_running c elapsed hrunning]
    exact hfailed

/-- A run that is kept clear of unreachable methods does not fail, however long it goes on. -/
theorem Within.not_failed_advance (ho : r.Orderly c) (hw : r.Within b) (hfailed : ¬r.Failed)
    (elapsed n : Nat) : ¬(r.advance c elapsed n).Failed := by
  induction n generalizing r with
  | zero => exact hfailed
  | succ n ih =>
    rw [Run.advance]
    split
    · exact ih (ho.tick hc elapsed).orderly ((maintained_within hb hc).tick ho hw elapsed)
        (hw.not_failed_tick hb hnone hc ho hfailed elapsed)
    · exact hfailed

end

end Run

end DemandAlias
