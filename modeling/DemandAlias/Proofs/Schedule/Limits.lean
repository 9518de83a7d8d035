import DemandAlias.Proofs.Schedule.Answers
import DemandAlias.Proofs.Schedule.Ticks

/-!
# Limits on steps

A limit on the steps only cuts a run short. Under two limits a run does the same up to the lower
one, and is stopped there if a step is due (`Run.advance_limit`), so that the run under the lower
limit has nothing that the other one does not have. What is answered grows with what the run has
(`Session.report_within`). If a run without a limit converges after `N` steps, the run with a
limit of `k` steps thus makes as many of them as it may, and answers part of what is answered
under a higher limit, and all of it if it may make `N` steps (`Session.prefixes_of_limits`).
-/

namespace DemandAlias

variable {ω : Type}

/-- The setting with a limit on the steps, or with none. -/
def Setting.limit (c : Setting ω) (maxSteps : Option Nat) : Setting ω :=
  { c with options := { c.options with maxSteps } }

/-- Without a limit on the time, only the steps count. -/
theorem isExhausted_limit {c : Setting ω} (htime : c.options.timeout = none)
    (maxSteps : Option Nat) (batch steps elapsed : Nat) :
    (c.limit maxSteps).options.isExhausted batch steps elapsed = maxSteps.any (· ≤ steps) := by
  simp [Setting.limit, Options.isExhausted, htime]

namespace Run

variable [Weight ω] [DecidableEq ω]

/-- The steps made are not taken back. -/
theorem steps_le_advance (c : Setting ω) (elapsed n : Nat) (r : Run ω) :
    r.steps ≤ (r.advance c elapsed n).steps := by
  induction n generalizing r with
  | zero => exact Nat.le_refl _
  | succ n ih =>
    rw [Run.advance]
    split
    · refine Nat.le_trans ?_ (ih _)
      rw [tick_eq]
      split
      · split
        · exact Nat.le_refl _
        · rw [steps_stepDue]
          exact Nat.le_succ _
      · rw [steps_pass]
    · exact Nat.le_refl _

/-! ### Two limits -/

variable [ZeroFree ω] {c : Setting ω} {r : Run ω}

/-- A run under a limit of `k` steps and the same one under a higher limit, or under none: they
    are the same, or the one was stopped after `k` steps, and the other one has gone on. -/
inductive CutShort (k : Nat) (r r' : Run ω) : Prop
  | same (heq : r = r') (hle : r.steps ≤ k)
  | stopped (hphase : r.phase = .timedOut) (hsteps : r.steps = k) (hlt : k < r'.steps)
      (hgrows : Grows r r')

omit [ZeroFree ω] in
/-- What a tick does under a limit on the steps. -/
theorem tick_limit (htime : c.options.timeout = none) (maxSteps : Option Nat) (elapsed : Nat) :
    r.tick (c.limit maxSteps) elapsed =
      if r.isDue c then if maxSteps.any (· ≤ r.steps) then r.stopped c else r.stepDue c
      else r.pass c := by
  rw [tick_eq, isExhausted_limit htime]
  rfl

/-- A run that is stopped has nothing that it would not have with the step that is due. -/
theorem grows_stopped (hc : c.weighing.ZeroFree) (ho : r.Orderly c) (hdue : r.isDue c = true) :
    Grows (r.stopped c) (r.stepDue c) := by
  obtain ⟨hrunning, s, queue, hs, -, heq⟩ := exists_of_isDue hdue
  have ho₁ := (ho.refreshSolver hrunning).orderly.countStep
  have hstep := ho₁.orderly.serveSolver hc hrunning rfl hs queue
  have hstop : Grows (r.stopped c) (r.refreshed c) :=
    { Grows.refl _ with
      failed := fun hf =>
        absurd hf (not_failed (show (r.stopped c).phase = .timedOut from rfl)) }
  rw [heq]
  exact (hstop.trans ho₁.grows).trans hstep.grows

/-- A run under a limit of `k` steps is the run under a higher limit, cut short. -/
theorem advance_limit (hc : c.weighing.ZeroFree) (htime : c.options.timeout = none) {k : Nat}
    {limit : Option Nat} (hle : ∀ l ∈ limit, k ≤ l) (ho : r.Orderly (c.limit limit))
    (hsteps : r.steps ≤ k) (elapsed n : Nat) :
    CutShort k (r.advance (c.limit (some k)) elapsed n) (r.advance (c.limit limit) elapsed n) := by
  have hc' : (c.limit limit).weighing.ZeroFree := hc
  induction n generalizing r with
  | zero => exact .same rfl hsteps
  | succ n ih =>
    cases hrunning : r.isRunning with
    | false =>
      rw [advance_of_not_running _ _ _ hrunning, advance_of_not_running _ _ _ hrunning]
      exact .same rfl hsteps
    | true =>
      rw [advance_succ_of_running _ _ _ hrunning, advance_succ_of_running _ _ _ hrunning]
      have ho' := (ho.tick hc' elapsed).orderly
      rw [tick_limit htime] at ho' ⊢
      rw [tick_limit htime]
      cases hdue : r.isDue c with
      | false =>
        simp only [hdue, Bool.false_eq_true, if_false] at ho' ⊢
        exact ih ho' (steps_pass c r ▸ hsteps)
      | true =>
        have hcount := steps_stepDue c r
        simp only [hdue, if_true, Option.any_some, decide_eq_true_eq] at ho' ⊢
        rcases Nat.lt_or_eq_of_le hsteps with hlt | heq
        · -- There are steps left under both limits.
          have hmore : limit.any (· ≤ r.steps) = false := by
            cases limit with
            | none => rfl
            | some l => simpa using Nat.lt_of_lt_of_le hlt (hle l rfl)
          rw [if_neg (Nat.not_le.2 hlt), hmore]
          rw [hmore] at ho'
          exact ih ho' (hcount ▸ hlt)
        · -- The lower limit is reached, and perhaps the other one too.
          rw [if_pos (Nat.le_of_eq heq.symm), advance_of_not_running _ _ _ rfl]
          cases hmore : limit.any (· ≤ r.steps) with
          | true =>
            rw [if_pos rfl, advance_of_not_running _ _ _ rfl]
            exact .same rfl hsteps
          | false =>
            rw [hmore] at ho'
            have hgrows : Grows (r.stopped c) (r.stepDue c) :=
              grows_stopped (c := c.limit limit) hc' ho hdue
            rw [if_neg Bool.false_ne_true] at ho' ⊢
            have hlater := steps_le_advance (c.limit limit) elapsed n (r.stepDue c)
            refine .stopped rfl heq ?_ (hgrows.trans (ho'.advance hc' elapsed n).grows)
            omega

end Run

/-! ### Runs that have more -/

theorem Automaton.Accepts.mono {σ Λ ω κ : Type} [DecidableEq σ] [Hashable σ] [DecidableEq Λ]
    [Hashable Λ] {a b : Automaton σ Λ ω κ} (hfinal : b.final = a.final)
    (htransitions : ∀ {t}, t ∈ a.transitions → t ∈ b.transitions) {q : σ} (h : a.Accepts q) :
    b.Accepts q := by
  induction h with
  | final hq => exact .final (hfinal ▸ hq)
  | step ht _ ih => exact .step (htransitions ht) ih

namespace Solver.Grows

/-- The access paths of a solver are still there. -/
theorem accessPathsAt {s s' : Solver ω} (h : Grows s s') (hs : s.fields.Consistent)
    (hs' : s'.fields.Consistent) (stmt : Statement) :
    s.accessPathsAt stmt ⊆ s'.accessPathsAt stmt := by
  intro path hpath
  rw [mem_accessPathsAt_iff] at hpath ⊢
  exact ⟨h.reached hpath.1,
    stacksFrom_subset hs hs' (fun _ => h.fields) (List.Subset.refl _) hpath.2⟩

/-- The nodes a solver reports are still there, if only reachability is asked for. -/
theorem nodes {c c' : Setting Reach} (hweighing : c.weighing = .reach)
    (hweighing' : c'.weighing = .reach) {s s' : Solver Reach} (h : Grows s s') (hs : s.Sound)
    (hs' : s'.Sound) (q : ForwardQuery) :
    (Run.tableOf c s q).map (·.1) ⊆ (Run.tableOf c' s' q).map (·.1) := by
  intro n hn
  rw [Pushdown.mem_tableOf_iff hweighing, mem_nodeWeights_iff hs.calls,
    holdsDirectly_iff hs.fields] at hn
  rw [Pushdown.mem_tableOf_iff hweighing', mem_nodeWeights_iff hs'.calls,
    holdsDirectly_iff hs'.fields]
  obtain ⟨⟨hreached, q, hq, haccepts⟩, p, hp⟩ := hn
  exact ⟨⟨h.reached hreached, q, h.calls hq, haccepts.mono h.final h.calls⟩, p, h.fields hp⟩

end Solver.Grows

/-- All that the one snapshot shows the other one does. -/
structure Snapshot.Within (a b : Snapshot) : Prop where
  reached : a.reached ⊆ b.reached
  calls : a.calls ⊆ b.calls
  fields : a.fields ⊆ b.fields

theorem Snapshot.within_ofSolver [Weight ω] [DecidableEq ω] {s s' : Solver ω}
    (h : Solver.Grows s s') : (ofSolver s).Within (ofSolver s') where
  reached _ hn := mem_mergeSort.2 (h.reached (mem_mergeSort.1 hn))
  calls _ ht := mem_mergeSort.2 (h.calls (mem_mergeSort.1 ht))
  fields _ ht := mem_mergeSort.2 (h.fields (mem_mergeSort.1 ht))

/-- All that is answered by the one is answered by the other. -/
def Answer.Within : Answer ω → Answer ω → Prop
  | .backward a, .backward b => a.allocations ⊆ b.allocations ∧ a.aliases ⊆ b.aliases ∧
    a.automata.Within b.automata
  | .forward a, .forward b => a.nodes ⊆ b.nodes ∧ a.automata.Within b.automata
  | _, _ => False

namespace Session

open Run

/-- A run that has all that another one has answers all that the other one does. -/
theorem report_within {session session' : Session Reach} {r r' : Run Reach}
    (ho : r.Orderly session.setting) (ho' : r'.Orderly session'.setting) (hgrows : Grows r r')
    {q : Query} (hid : r.Names ⟨0⟩ q) (hfailed : ¬r.Failed) (hfailed' : ¬r'.Failed)
    (hweighing : session.setting.weighing = .reach)
    (hweighing' : session'.setting.weighing = .reach)
    (hreport : session'.setting.options.reportAliases = session.setting.options.reportAliases) :
    ∃ a a', session.report q r = .ok a ∧ session'.report q r' = .ok a' ∧ a.Within a' := by
  obtain ⟨s, hs, -⟩ := ho.ids hid
  obtain ⟨s', hs', hsolver⟩ := hgrows.solvers hs
  have hautomata := Snapshot.within_ofSolver hsolver
  cases q with
  | backward =>
    simp only [report, endBackward, failure?_eq_none hfailed, failure?_eq_none hfailed']
    refine ⟨_, _, rfl, rfl, ?_⟩
    have hallocations : r.allocationsOf ⟨0⟩ ⊆ r'.allocationsOf ⟨0⟩ := fun a ha =>
      mem_mergeSort.2 (hgrows.allocations (mem_mergeSort.1 ha))
    refine ⟨hallocations, ?_,
      by simpa only [backwardResult, hs, hs', Option.elim_some] using hautomata⟩
    simp only [backwardResult, hreport]
    split
    · intro path hpath
      rw [mem_aliasesAt_iff] at hpath ⊢
      obtain ⟨a, ha, id, t, hida, ht, hpath⟩ := hpath
      obtain ⟨t', ht', htgrows⟩ := hgrows.solvers ht
      exact ⟨a, hallocations ha, id, t', hgrows.ids hida, ht',
        htgrows.accessPathsAt (ho.kept ht).sound.fields (ho'.kept ht').sound.fields _ hpath⟩
    · exact List.Subset.refl _
  | forward q =>
    simp only [report, endForward, failure?_eq_none hfailed, failure?_eq_none hfailed', hs, hs']
    exact ⟨_, _, rfl, rfl, hsolver.nodes hweighing hweighing' (ho.kept hs).sound
      (ho'.kept hs').sound q, hautomata⟩

/-! ### Runs under limits -/

/-- A session in which only reachability is asked for, with a limit on the steps or none, and with
    none on the time. -/
def limited (p : Program) (scope : Scope) (options : Options) (maxSteps : Option Nat) :
    Session Reach :=
  start ⟨p, scope, .reach, { options with maxSteps, timeout := none }⟩

/-- All that the solvers of the one run have the solvers of the other one have. -/
def SolversWithin [Weight ω] [DecidableEq ω] (r r' : Run ω) : Prop :=
  ∀ id s, r.solver? id = some s →
    ∃ s', r'.solver? id = some s' ∧ (Snapshot.ofSolver s).Within (.ofSolver s')

section Limited

variable (p : Program) (scope : Scope) (options : Options) (q : Query) (elapsed ticks : Nat)

theorem orderly_limited (maxSteps : Option Nat) :
    ((limited p scope options maxSteps).after q elapsed ticks).Orderly
      (limited p scope options maxSteps).setting ∧
    ((limited p scope options maxSteps).after q elapsed ticks).Names ⟨0⟩ q := by
  obtain ⟨ho, hid⟩ := orderly_begin (limited p scope options maxSteps) q
  have hadvance := ho.advance zeroFree_reach elapsed ticks
  exact ⟨hadvance.orderly, hadvance.grows.ids hid⟩

theorem cutShort_limited (k : Nat) (limit : Option Nat) (hle : ∀ l ∈ limit, k ≤ l) :
    CutShort k ((limited p scope options (some k)).after q elapsed ticks)
      ((limited p scope options limit).after q elapsed ticks) := by
  have hbegin : (limited p scope options (some k)).begin q =
      (limited p scope options limit).begin q := by cases q <;> rfl
  have hzero := (standing_begin (limited p scope options limit) q).steps
  have hcut := advance_limit (c := ⟨p, scope, .reach, { options with timeout := none }⟩)
    zeroFree_reach rfl hle (orderly_begin (limited p scope options limit) q).1
    (hzero ▸ Nat.zero_le k) elapsed ticks
  rw [after, hbegin]
  exact hcut

end Limited

/-- If the run of a query without a limit converges after `N` steps, the run with a limit of `k`
    steps makes `k` steps, or `N` if that is less, and is stopped before its end if `k` is less.
    What it answers is among what is answered under a higher limit, and so is what its solvers
    have. With a limit of `N` steps or more, nothing is different from the run without one. -/
theorem prefixes_of_limits (p : Program) (scope : Scope) (options : Options) (q : Query)
    (elapsed ticks N : Nat)
    (hconverged : ((limited p scope options none).after q elapsed ticks).phase = .converged)
    (hsteps : ((limited p scope options none).after q elapsed ticks).steps = N) :
    (∀ k, ((limited p scope options (some k)).after q elapsed ticks).phase =
        (if k < N then .timedOut else .converged) ∧
      ∃ answer, (limited p scope options (some k)).answerAfter q elapsed ticks = .ok answer ∧
        answer.stats.steps = min k N ∧ (answer.timedOut = true ↔ k < N)) ∧
    (∀ k k', k ≤ k' →
      (∃ answer answer',
        (limited p scope options (some k)).answerAfter q elapsed ticks = .ok answer ∧
        (limited p scope options (some k')).answerAfter q elapsed ticks = .ok answer' ∧
        answer.Within answer') ∧
      SolversWithin ((limited p scope options (some k)).after q elapsed ticks)
        ((limited p scope options (some k')).after q elapsed ticks)) ∧
    ∀ k, N ≤ k →
      (limited p scope options (some k)).after q elapsed ticks =
        (limited p scope options none).after q elapsed ticks ∧
      (limited p scope options (some k)).answerAfter q elapsed ticks =
        (limited p scope options none).answerAfter q elapsed ticks := by
  -- The run under a limit is the one without, or was stopped with fewer steps.
  have hended : ∀ k, N ≤ k ∧ (limited p scope options (some k)).after q elapsed ticks =
        (limited p scope options none).after q elapsed ticks ∨
      k < N ∧ ((limited p scope options (some k)).after q elapsed ticks).phase = .timedOut ∧
        ((limited p scope options (some k)).after q elapsed ticks).steps = k := by
    intro k
    rcases cutShort_limited p scope options q elapsed ticks k none
      (by simp) with ⟨heq, hle⟩ | ⟨hphase, hcount, hlt, -⟩
    · exact .inl ⟨hsteps ▸ heq ▸ hle, heq⟩
    · exact .inr ⟨hsteps ▸ hlt, hphase, hcount⟩
  have hphase : ∀ k, ((limited p scope options (some k)).after q elapsed ticks).phase =
      (if k < N then .timedOut else .converged) := by
    intro k
    rcases hended k with ⟨hle, heq⟩ | ⟨hlt, hphase, -⟩
    · rw [heq, hconverged, if_neg (Nat.not_lt.2 hle)]
    · rw [hphase, if_pos hlt]
  have hfailed : ∀ k, ¬((limited p scope options (some k)).after q elapsed ticks).Failed := by
    rintro k ⟨n, hn⟩
    rw [hphase] at hn
    split at hn <;> cases hn
  refine ⟨fun k => ⟨hphase k, ?_⟩, fun k k' hle => ?_, fun k hk => ?_⟩
  · obtain ⟨answer, hanswer, hstats, htimedOut⟩ :=
      exists_report (limited p scope options (some k)) q (hfailed k)
    refine ⟨answer, hanswer, ?_, ?_⟩
    · rw [hstats]
      rcases hended k with ⟨hle, heq⟩ | ⟨hlt, -, hcount⟩
      · rw [Nat.min_eq_right hle, heq]
        exact hsteps
      · rw [Nat.min_eq_left (Nat.le_of_lt hlt)]
        exact hcount
    · rw [htimedOut, isTimedOut, hphase]
      split
      · next hlt => simp [hlt]
      · next hle => simp [hle]
  · have hgrows : Grows ((limited p scope options (some k)).after q elapsed ticks)
        ((limited p scope options (some k')).after q elapsed ticks) := by
      rcases cutShort_limited p scope options q elapsed ticks k (some k')
        (fun l hl => some.inj hl ▸ hle) with ⟨heq, -⟩ | ⟨-, -, -, hgrows⟩
      · rw [heq]
        exact .refl _
      · exact hgrows
    obtain ⟨ho, hid⟩ := orderly_limited p scope options q elapsed ticks (some k)
    obtain ⟨ho', -⟩ := orderly_limited p scope options q elapsed ticks (some k')
    refine ⟨report_within ho ho' hgrows hid (hfailed k) (hfailed k') rfl rfl rfl, fun id s hs => ?_⟩
    obtain ⟨s', hs', hsolver⟩ := hgrows.solvers hs
    exact ⟨s', hs', Snapshot.within_ofSolver hsolver⟩
  · rcases hended k with ⟨-, heq⟩ | ⟨hlt, -⟩
    · refine ⟨heq, ?_⟩
      rw [answerAfter, heq]
      cases q <;> rfl
    · exact absurd hk (Nat.not_le.2 hlt)

end Session

/-! ### An example -/

namespace Sharing

/-- The session in which it is asked what is read, with a limit on the steps. -/
def limited : Option Nat → Session Reach := .limited program .everything {}

/-- Without a limit, 195 steps are made. -/
theorem listing_unlimited : ((Run.Listing.begin (limited none).setting
      (hierarchyEdges program) (.backward query)).advance (limited none).setting
      0 1000).phase = .converged ∧
    ((Run.Listing.begin (limited none).setting (hierarchyEdges program)
      (.backward query)).advance (limited none).setting 0 1000).steps = 195 := by
  decide +kernel

theorem converges_unlimited : ((limited none).after (.backward query) 0 1000).phase = .converged ∧
    ((limited none).after (.backward query) 0 1000).steps = 195 := by
  have hgraph : (limited none).graph.ListedBy (hierarchyEdges program) :=
    listedBy_classHierarchy program
  have hlisted := (Run.listedBy_begin hgraph (.backward query)).advance
    (c := (limited none).setting) 0 1000
  exact ⟨hlisted.phase.trans listing_unlimited.1, hlisted.steps.trans listing_unlimited.2⟩

end Sharing

/-- With a limit of 100 steps, part of what is answered with a limit of 200 steps is answered,
    which are enough to answer all. -/
theorem Session.prefixes_sharing :
    ∃ answer answer',
      (Sharing.limited (some 100)).answerAfter (.backward Sharing.query) 0 1000 = .ok answer ∧
      (Sharing.limited (some 200)).answerAfter (.backward Sharing.query) 0 1000 = .ok answer' ∧
      answer.stats.steps = 100 ∧ answer.timedOut = true ∧ answer.Within answer' ∧
      (Sharing.limited none).answerAfter (.backward Sharing.query) 0 1000 = .ok answer' := by
  obtain ⟨hphase, hsteps⟩ := Sharing.converges_unlimited
  obtain ⟨hended, hwithin, hall⟩ := prefixes_of_limits Sharing.program .everything {}
    (.backward Sharing.query) 0 1000 195 hphase hsteps
  obtain ⟨-, answer, hanswer, hcount, htimedOut⟩ := hended 100
  obtain ⟨⟨a, answer', ha, hanswer', hle⟩, -⟩ := hwithin 100 200 (by decide)
  cases hanswer.symm.trans ha
  refine ⟨answer, answer', hanswer, hanswer', hcount, htimedOut.2 (by decide), hle, ?_⟩
  exact (hall 200 (by decide)).2.symm.trans hanswer'

end DemandAlias
