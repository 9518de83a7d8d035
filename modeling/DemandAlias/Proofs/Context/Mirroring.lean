import DemandAlias.Proofs.Context.Copies
import DemandAlias.Proofs.Context.Formation
import DemandAlias.Proofs.Unwinding

/-!
# Copied contexts mirror their originals

When a run has converged, a calling context that one solver has copied from another leads on as the
original does: to the copies of the contexts that the original leads to, by the same call sites, and
to nothing else (`Run.Reachable.mem_transitions_copy_iff`). The bottom of the one solver stands for
that of the other one, so the copy accepts the stacks of calls that the original accepts
(`Run.Reachable.acceptsFrom_importOf_iff`).

* `Run.Mirrors`: what a copy has in common with its original;
* `Run.contextsMirrored_of_converged`: all copies do, in every run that has converged.
-/

namespace DemandAlias

variable {e : State}

/-- The labels lead from the state to a final one. -/
def Automaton.AcceptsFrom {σ Λ ω κ : Type} [DecidableEq σ] [Hashable σ] [DecidableEq Λ]
    [Hashable Λ] (a : Automaton σ Λ ω κ) : σ → List Λ → Prop
  | q, [] => q ∈ a.final
  | q, l :: ls => ∃ q', ⟨q, l, q'⟩ ∈ a.transitions ∧ a.AcceptsFrom q' ls

namespace Run

variable {ω : Type}

/-- The copy that the solver `s` has of the state `e` of the solver `s'` of this number has the
    copies of the transitions out of `e`, and accepts the same stacks of calls. -/
structure Mirrors (s : Solver ω) (id : SolverId) (s' : Solver ω) (e : State) : Prop where
  transitions : ∀ site e₁, ⟨.generated e (.imported id), site, e₁⟩ ∈ s.calls.transitions ↔
    ∃ e', ⟨e, site, e'⟩ ∈ s'.calls.transitions ∧ e₁ = importOf s id s' e'
  accepts : ∀ stack, s.calls.AcceptsFrom (.generated e (.imported id)) stack ↔
    s'.calls.AcceptsFrom e stack

/-- The contexts that any solver has copied from any other mirror those of the other. -/
def ContextsMirrored (r : Run ω) : Prop :=
  ∀ ⦃id s⦄, r.solver? id = some s → ∀ ⦃id' s'⦄, r.solver? id' = some s' →
    ∀ e, .generated e (.imported id') ∈ s.calls.states → Mirrors s id' s' e

theorem importOf_of_ne {s s' : Solver ω} (id : SolverId) (h : e ≠ s'.bottom) :
    importOf s id s' e = .generated e (.imported id) :=
  if_neg h

variable [Weight ω] [DecidableEq ω] {c : Setting ω} {r : Run ω}

variable [ZeroFree ω]

section Converged

variable (hc : c.weighing.ZeroFree) (h : Reachable c r) (hconverged : r.phase = .converged)
  {id id' : SolverId} {s s' : Solver ω} (hs : r.solver? id = some s)
  (hs' : r.solver? id' = some s')

include hc h hconverged hs hs'

/-- A solver only has copies of states from which everything else is copied, too. -/
theorem Reachable.copiesOut_of_mem_states (he : .generated e (.imported id') ∈ s.calls.states) :
    e ≠ s'.bottom ∧ r.CopiesOut id' id e := by
  have hcomplete := h.complete hc hconverged
  obtain ⟨graph, hw⟩ := h.within_rooted hc
  obtain ⟨q, hq⟩ := hw.named hs
  obtain ⟨q', requester, hq', hrequester, hbottom, sender, hsender, hcopy⟩ :=
    h.backs_of_mem_states hc hconverged hq hs he rfl
  -- Each query has one solver, so the numbers are those of the two solvers.
  obtain rfl : requester = id := some.inj (hrequester.symm.trans hq)
  obtain rfl : sender = id' := some.inj (hsender.symm.trans hq')
  obtain ⟨hseed, -⟩ := (hcomplete.ids hq').of_solver? hs'
  refine ⟨?_, s', hs', .inr hcopy⟩
  rw [bottom, hseed]
  exact hbottom

/-- The transitions out of the copy of a state are the copies of those out of the state. -/
theorem Reachable.mem_transitions_copy_iff (hbottom : e ≠ s'.bottom)
    (hcopies : r.CopiesOut id' id e) (site : Statement) (e₁ : State) :
    ⟨.generated e (.imported id'), site, e₁⟩ ∈ s.calls.transitions ↔
      ∃ e', ⟨e, site, e'⟩ ∈ s'.calls.transitions ∧ e₁ = importOf s id' s' e' := by
  have hcomplete := h.complete hc hconverged
  constructor
  · intro ht
    obtain ⟨graph, hw⟩ := h.within_rooted hc
    obtain ⟨q, hq⟩ := hw.named hs
    obtain ⟨q', e', hq', horiginal, htarget⟩ :=
      ((h.solver_within_copying hc hconverged hq hs).call ht).original rfl
    obtain ⟨hseed, -⟩ := (hcomplete.ids hq).of_solver? hs
    obtain ⟨hseed', -⟩ := (hcomplete.ids hq').of_solver? hs'
    rw [Query.copyOf, ← hseed, ← hseed'] at htarget
    exact ⟨e', (hasSolver_iff hq' hs' _).1 horiginal, htarget⟩
  · rintro ⟨e', ht, rfl⟩
    obtain ⟨-, -, q, q', hq, hq', hcall⟩ := hcomplete.copy_handled hs' hcopies hbottom ht
    rw [← importOf_of_ne (s := s) id' hbottom, ← hq.eq_importOf hs hs', ← hq'.eq_importOf hs hs']
    exact hcall.of_solver? hs

/-- The stacks of calls accepted from a copy are those accepted from the original. -/
theorem Reachable.acceptsFrom_importOf_iff (stack : List Statement)
    (hcopies : r.CopiesOut id' id e) :
    s.calls.AcceptsFrom (importOf s id' s' e) stack ↔ s'.calls.AcceptsFrom e stack := by
  have hcomplete := h.complete hc hconverged
  induction stack generalizing e with
  | nil =>
    simp only [Automaton.AcceptsFrom, hcomplete.mem_final_iff hs, hcomplete.mem_final_iff hs']
    by_cases hbottom : e = s'.bottom
    · simp [importOf, hbottom]
    · rw [importOf_of_ne id' hbottom]
      refine iff_of_false ?_ hbottom
      rintro ⟨⟩
  | cons site _ ih =>
    simp only [Automaton.AcceptsFrom]
    by_cases hbottom : e = s'.bottom
    · -- Nothing leads on from either of the bottoms.
      rw [hbottom, importOf, if_pos rfl]
      refine iff_of_false ?_ ?_
      · rintro ⟨e', ht, -⟩
        exact h.rooted hc hs _ ht rfl
      · rintro ⟨e', ht, -⟩
        exact h.rooted hc hs' _ ht rfl
    · rw [importOf_of_ne id' hbottom]
      simp only [h.mem_transitions_copy_iff hc hconverged hs hs' hbottom hcopies]
      -- What the state leads to is copied in turn, so that the rest of the stack is compared there.
      have hdeeper : ∀ {e'}, ⟨e, site, e'⟩ ∈ s'.calls.transitions → r.CopiesOut id' id e' :=
        fun ht => (hcomplete.copy_handled hs' hcopies hbottom ht).2.1
      constructor
      · rintro ⟨_, ⟨e', ht, rfl⟩, haccepts⟩
        exact ⟨e', ht, (ih (hdeeper ht)).1 haccepts⟩
      · rintro ⟨e', ht, haccepts⟩
        exact ⟨_, ⟨e', ht, rfl⟩, (ih (hdeeper ht)).2 haccepts⟩

end Converged

theorem Reachable.contextsMirrored (hc : c.weighing.ZeroFree) (h : Reachable c r)
    (hconverged : r.phase = .converged) : r.ContextsMirrored := by
  intro id s hs id' s' hs' e he
  obtain ⟨hbottom, hcopies⟩ := h.copiesOut_of_mem_states hc hconverged hs hs' he
  refine ⟨h.mem_transitions_copy_iff hc hconverged hs hs' hbottom hcopies, fun stack => ?_⟩
  rw [← importOf_of_ne (s := s) id' hbottom]
  exact h.acceptsFrom_importOf_iff hc hconverged hs hs' stack hcopies

/-- In a converged run, every copied context mirrors its original, whether reachability is asked for
    or trails. -/
theorem contextsMirrored_of_converged :
    (∀ (c : Setting Reach) (r : Run Reach), c.weighing = .reach → Reachable c r →
      r.phase = .converged → r.ContextsMirrored) ∧
    ∀ (c : Setting Trail) (r : Run Trail), c.weighing = .trail → Reachable c r →
      r.phase = .converged → r.ContextsMirrored := by
  refine ⟨fun c r hc h hconverged => ?_, fun c r hc h hconverged => ?_⟩
  · exact h.contextsMirrored (hc ▸ zeroFree_reach) hconverged
  · exact h.contextsMirrored (hc ▸ zeroFree_trail) hconverged

end Run

/-! ### An example -/

namespace Stowing

variable {ω : Type} [Weight ω] [DecidableEq ω]

/-- The call of the method that writes to the field. -/
def site : Statement := ⟨main, 1, .call ⟨.static stow, [.var box]⟩⟩

/-- The run has converged, and the solver of the query has a copy of the frame in which the field is
    written to, which leads to its bottom. -/
def HasCopy (l : Run.Listing ω) : Prop :=
  l.phase = .converged ∧
    ((l.solver? ⟨0⟩).any fun s => s.direction = .backward ∧
      s.calls.transitions.contains ⟨copied, site, .bottom s.seed⟩) = true ∧
    ((l.solver? ⟨1⟩).any fun s => s.direction = .forward) = true
  deriving Decidable

theorem exists_mirrored [ZeroFree ω] {weighing : Weighing ω} (hc : weighing.ZeroFree) {n : Nat}
    (h : HasCopy ((Run.Listing.beginBackward (setting weighing) query).advance
      (setting weighing) 0 n))
    (hmirrored : ∀ r, Run.Reachable (setting weighing) r → r.phase = .converged →
      r.ContextsMirrored) :
    ∃ r s s', Run.Reachable (setting weighing) r ∧ r.phase = .converged ∧ r.ContextsMirrored ∧
      r.solver? ⟨0⟩ = some s ∧ s.direction = .backward ∧ r.solver? ⟨1⟩ = some s' ∧
      s'.direction = .forward ∧ copied ∈ s.calls.states ∧ s.calls.AcceptsFrom copied [site] ∧
      s'.calls.AcceptsFrom frame [site] := by
  obtain ⟨hphase, hcopy, horiginal⟩ := h
  obtain ⟨r, hr, hlisted⟩ := Run.exists_listed (setting weighing) (.backward query) n
  have hconverged := hlisted.phase.trans hphase
  have hcomplete := hr.complete hc hconverged
  obtain ⟨s, l, hs, hl, hcopy⟩ := hlisted.exists_solver hcopy
  obtain ⟨s', l', hs', hl', hforward⟩ := hlisted.exists_solver horiginal
  obtain ⟨hbackward, ht⟩ := of_decide_eq_true hcopy
  rw [List.contains_iff_mem, ← hl.calls.transitions, ← hl.seed] at ht
  have hconsistent := (hcomplete.finished hs).sound.calls
  have hstate : copied ∈ s.calls.states :=
    hconsistent.sources _ ((hconsistent.mem_transitions_iff _).1 ht)
  have haccepts : s.calls.AcceptsFrom copied [site] :=
    ⟨s.bottom, ht, (hcomplete.mem_final_iff hs _).2 rfl⟩
  have hmirrors := hmirrored _ hr hconverged
  exact ⟨_, s, s', hr, hconverged, hmirrors, hs, hl.direction.trans hbackward, hs',
    hl'.direction.trans (of_decide_eq_true hforward), hstate, haccepts,
    ((hmirrors hs hs' frame hstate).accepts _).1 haccepts⟩

end Stowing

/-- The frame in which the field is written to is copied, and the method is called in it as it is in
    the original. -/
theorem Run.contextsMirrored_stowing :
    (∃ r s s', Reachable (Stowing.setting .reach) r ∧ r.phase = .converged ∧ r.ContextsMirrored ∧
      r.solver? ⟨0⟩ = some s ∧ s.direction = .backward ∧ r.solver? ⟨1⟩ = some s' ∧
      s'.direction = .forward ∧ Stowing.copied ∈ s.calls.states ∧
      s.calls.AcceptsFrom Stowing.copied [Stowing.site] ∧
      s'.calls.AcceptsFrom Stowing.frame [Stowing.site]) ∧
    ∃ r s s', Reachable (Stowing.setting .trail) r ∧ r.phase = .converged ∧ r.ContextsMirrored ∧
      r.solver? ⟨0⟩ = some s ∧ s.direction = .backward ∧ r.solver? ⟨1⟩ = some s' ∧
      s'.direction = .forward ∧ Stowing.copied ∈ s.calls.states ∧
      s.calls.AcceptsFrom Stowing.copied [Stowing.site] ∧
      s'.calls.AcceptsFrom Stowing.frame [Stowing.site] :=
  ⟨Stowing.exists_mirrored (n := 175) zeroFree_reach (by decide +kernel)
      fun r => contextsMirrored_of_converged.1 _ r rfl,
    Stowing.exists_mirrored (n := 175) zeroFree_trail (by decide +kernel)
      fun r => contextsMirrored_of_converged.2 _ r rfl⟩

end DemandAlias
