import DemandAlias.Proofs.Run.Bound

/-!
# Schedules

A *schedule* lets the solvers of a run work in any order: at any time, any of them may
catch up with the call graph, and any that is up to date may serve any of its queues in
which something waits, and pass its messages on (`Run.Scheduled`). Nothing is said about
turns or about how long they are, so the schedule by which runs advance is one of these
(`Run.Follows.advance`).

A run is at rest when every solver is up to date and idle (`Run.Rested`). Then everything
is done (`Run.Scheduled.complete`), whatever the schedule was.
-/

namespace DemandAlias

namespace Run

variable {ω : Type} [Weight ω] [DecidableEq ω]

/-! ### Any schedule -/

/-- The run comes from `r₀` by a schedule. -/
inductive Scheduled (c : Setting ω) (r₀ : Run ω) : Run ω → Prop
  | start : Scheduled c r₀ r₀
  | refresh {r : Run ω} (h : Scheduled c r₀ r) (id : SolverId) :
    Scheduled c r₀ (r.modifySolver id fun s => s.refresh c r.graph)
  | serve {r : Run ω} (h : Scheduled c r₀ r) {id : SolverId} {s : Solver ω} {queue : WorkQueue}
      (hs : r.solver? id = some s) (hseen : s.edgesSeen = r.graph.size)
      (hwork : s.hasWork queue = true) :
    Scheduled c r₀ (r.serveSolver c id queue)
  | turn {r : Run ω} (h : Scheduled c r₀ r) (turn : Turn) : Scheduled c r₀ { r with turn }

/-- Every solver of the run is up to date and idle, and the run has not failed. -/
structure Rested (r : Run ω) : Prop where
  failed : ¬r.Failed
  rests : ∀ {id s}, r.solver? id = some s → r.Rests s

variable [ZeroFree ω] {c : Setting ω} {r₀ r : Run ω}

section

variable (hc : c.weighing.ZeroFree) (h : Scheduled c r₀ r) (h₀ : r₀.Kept c Nothing)
include hc h h₀

/-- A run keeps to everything, whatever the schedule is. -/
theorem Scheduled.kept : r.Kept c Nothing ∧ Grows r₀ r := by
  induction h with
  | start => exact ⟨h₀, .refl r₀⟩
  | refresh _ id ih =>
    have hp := ih.1.refreshSolver id
    exact ⟨hp.kept, ih.2.trans hp.grows⟩
  | @serve _ _ _ _ queue hs _ _ ih =>
    have hp := ih.1.serveSolver hc hs queue
    exact ⟨hp.kept, ih.2.trans hp.grows⟩
  | @turn r _ turn ih =>
    have hgrows : Grows r { r with turn } := { Grows.refl r with }
    exact ⟨ih.1.note hgrows rfl rfl ⟨⟨rfl, rfl⟩, rfl, rfl⟩ rfl, ih.2.trans hgrows⟩

/-- A run stays within a closed bound, whatever the schedule is. -/
theorem Scheduled.stays {b : RunBound ω} (hb : b.Closed c) (hw : r₀.Within b) : r.Within b := by
  induction h with
  | start => exact hw
  | refresh h id ih => exact ih.refreshSolver hb (h.kept hc h₀).1.toCore id
  | serve h hs _ _ ih => exact ih.serveSolver hc (h.kept hc h₀).1 hs hb _
  | turn _ _ ih => exact ih.clock

end

/-! ### Queries -/

namespace Scheduled

variable {session : Session ω} {q : Query} (hc : session.setting.weighing.ZeroFree)
  (h : Scheduled session.setting (session.begin q) r)
include hc h

theorem grows : Grows (session.begin q) r := (h.kept hc (orderly_begin session q).1.toKept).2

/-- The solver of the query is the first one. -/
theorem names : r.Names ⟨0⟩ q := (h.grows hc).ids (orderly_begin session q).2

/-- A run ends with all the edges that its session has. -/
theorem grows_graph : session.graph.Grows r.graph :=
  ((grows_begin session q).trans (h.grows hc)).graph

/-- A run stays within a closed bound that allows what it begins with. -/
theorem within {b : RunBound ω} (hb : b.Closed session.setting) (hgraph : b.graph = session.graph)
    (hedge : ∀ {x : Crossing} {e}, e ∈ x.edges session.graph → b.edge x e) (hq : b.query q)
    (haliases : .aliases ∈ (session.begin q).subscribers.get ⟨0⟩ →
      ∀ N : Naming, N ⟨0⟩ q → b.subscriber N q .aliases) : r.Within b :=
  h.stays hc (orderly_begin session q).1.toKept hb
    (within_begin session hb.toPassing hgraph hedge hq haliases)

/-- A run at rest has nothing left to do. -/
theorem complete (hrested : r.Rested) : r.Complete session.setting := by
  have hkept := (h.kept hc (orderly_begin session q).1.toKept).1
  exact ⟨hkept, fun hs => hkept.finished hrested.failed hs (hrested.rests hs)⟩

end Scheduled

/-! ### The schedule of ticks -/

/-- The run comes from `r₀` by a schedule, except that it may have been ended since. -/
def Follows (c : Setting ω) (r₀ r : Run ω) : Prop :=
  Scheduled c r₀ r ∨ Scheduled c r₀ { r with phase := .running }

/-- A tick is a step of a schedule, or ends the run. -/
theorem Follows.tick (h : Follows c r₀ r) (ho : r.Orderly c) (elapsed : Nat) :
    Follows c r₀ (r.tick c elapsed) := by
  by_cases hrunning : r.phase = .running
  · have hr : Scheduled c r₀ r := by
      refine h.elim id fun hr => ?_
      rwa [← hrunning] at hr
    rcases tick_cases c elapsed hrunning with
      ⟨-, heq⟩ | ⟨-, -, heq⟩ | ⟨s, -, r₁, hr₁, hs, hend⟩
    · rw [heq, endRound]
      split
      · exact .inl (hr.turn {})
      · exact .inr (hrunning ▸ hr)
    · rw [heq]
      exact .inl (hr.turn _)
    have hr₁' : Scheduled c r₀ r₁ := hr₁ ▸ hr.refresh ⟨r.turn.solver⟩
    have hrunning₁ : r₁.phase = .running := by rw [hr₁]; exact hrunning
    rcases hend with ⟨-, heq⟩ | ⟨-, heq⟩ | ⟨queue, hwork, heq⟩
    · exact heq ▸ .inl (hr₁'.turn _)
    · exact heq ▸ .inr (hrunning₁ ▸ hr₁')
    · have hseen : s.edgesSeen = r₁.graph.size := by
        rw [hr₁, solver?_modifySolver, if_pos rfl] at hs
        obtain ⟨s₀, hs₀, rfl⟩ := map_eq_some_iff.1 hs
        rw [hr₁]
        exact (ho.kept hs₀).refresh.2.1
      have hcount : Scheduled c r₀ r₁.countStep := hr₁'.turn _
      exact heq ▸ .inl (hcount.serve hs hseen hwork)
  · rw [tick_of_not_running c elapsed hrunning]
    exact h

/-- The schedule by which a run advances is one of those considered. -/
theorem Follows.advance (hc : c.weighing.ZeroFree) (h : Follows c r₀ r) (ho : r.Orderly c)
    (elapsed n : Nat) : Follows c r₀ (r.advance c elapsed n) := by
  induction n generalizing r with
  | zero => exact h
  | succ n ih =>
    rw [Run.advance]
    split
    · exact ih (h.tick ho elapsed) (ho.tick hc elapsed).orderly
    · exact h

/-- A run that converges comes to rest by a schedule. -/
theorem Follows.exists_scheduled (hc : c.weighing.ZeroFree) (h : Follows c r₀ r)
    (ho : r.Orderly c) {elapsed n : Nat}
    (hconverged : (r.advance c elapsed n).phase = .converged) :
    ∃ r' : Run ω, Scheduled c r₀ r' ∧ r'.Rested ∧
      r.advance c elapsed n = { r' with phase := .converged } := by
  have horderly := (ho.advance hc elapsed n).orderly
  rcases h.advance hc ho elapsed n with h | h
  · refine ⟨_, h, ⟨not_failed hconverged, horderly.finished hconverged⟩, ?_⟩
    rw [← hconverged]
  · refine ⟨_, h, ⟨not_failed rfl, horderly.finished hconverged⟩, ?_⟩
    rw [← hconverged]

end Run

end DemandAlias
