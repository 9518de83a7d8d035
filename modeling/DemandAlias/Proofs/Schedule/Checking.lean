import DemandAlias.Proofs.Run.Evaluation
import DemandAlias.Proofs.Schedule.Ticks
import DemandAlias.Proofs.Solver.Sending

/-!
# Methods said to be unreachable

A program may say of some of its methods that they are unreachable, and a session may check
that. The check does not change what a run does before it processes a node in such a method
(`Run.tick_checking`), and then it makes the run fail (`Run.phase_tick_checking`). So the run that
is checked fails at the first such node that is processed without the check, and if there is none
the two runs are the same (`Run.advance_checking`, `Session.unsound_iff_first_unreachable`). This
holds for any weights.

Without the check a run does not fail (`Run.not_failed_advance_unchecked`): only processing a node
makes a solver report it (`Solver.mem_outbox_step`).
-/

namespace DemandAlias

variable {elapsed : Nat}

variable {ω : Type}

/-- The setting in which it is checked whether methods are unreachable, or is not. -/
def Setting.checking (c : Setting ω) (check : Bool) : Setting ω :=
  { c with options := { c.options with checkUnreachable := check } }

namespace Solver

variable {s : Solver ω} {n : Node}

/-- Whether it is checked matters only for nodes in methods said to be unreachable. -/
theorem process_checking (c : Setting ω) (g : CallGraph) (s : Solver ω)
    (hn : c.program.isUnreachable n.stmt.method = false) :
    s.process (c.checking true) g n = s.process (c.checking false) g n := by
  have hprogram : ∀ check, (c.checking check).program.isUnreachable n.stmt.method = false :=
    fun _ => hn
  simp only [process, hprogram, Bool.and_false, Bool.false_eq_true, if_false]
  rfl

variable [Weight ω] [DecidableEq ω]

/-! ### The node to be processed -/

/-- The node that the next step processes, if it processes one. -/
def upcoming? (s : Solver ω) : Option Node :=
  match s.turn? with
  | some .nodes => s.pending.pop?.map (·.1)
  | _ => none

theorem exists_of_upcoming? (h : s.upcoming? = some n) :
    ∃ pending, ∀ c g, s.step c g = { s with last := .nodes, pending }.process c g n := by
  unfold upcoming? at h
  split at h
  · next hturn =>
    obtain ⟨⟨n', pending⟩, hpop, rfl⟩ := map_eq_some_iff.1 h
    refine ⟨pending, fun c g => ?_⟩
    simp only [step, hturn, serve, hpop]
  · cases h

/-- A step that processes no such node is the same with the check and without. -/
theorem step_checking (c : Setting ω) (g : CallGraph) (s : Solver ω)
    (h : ∀ n ∈ s.upcoming?, c.program.isUnreachable n.stmt.method = false) :
    s.step (c.checking true) g = s.step (c.checking false) g := by
  cases hn : s.upcoming? with
  | some n =>
    obtain ⟨pending, hstep⟩ := exists_of_upcoming? hn
    rw [hstep, hstep, process_checking c g _ (h n hn)]
  | none =>
    unfold step
    split
    · next queue hturn =>
      cases queue with
      | calls | fields => rfl
      | nodes =>
        rw [upcoming?, hturn, Option.map_eq_none_iff] at hn
        simp [serve, hn]
    · rfl

/-- A step that processes such a node only reports it, if that is checked. -/
theorem outbox_step_checking {c : Setting ω} {g : CallGraph} (hn : s.upcoming? = some n)
    (hunreachable : c.program.isUnreachable n.stmt.method = true) :
    (s.step (c.checking true) g).outbox = .unreachable n :: s.outbox := by
  obtain ⟨pending, hstep⟩ := exists_of_upcoming? hn
  have hcheck : ((c.checking true).options.checkUnreachable &&
      (c.checking true).program.isUnreachable n.stmt.method) = true := hunreachable
  rw [hstep, process, if_pos hcheck]
  rfl

/-! ### What a solver has to say -/

theorem mem_outbox_of_makes {s' : Solver ω} (h : s.Makes Change.IsSilent s') {m : Message}
    (hm : m ∈ s'.outbox) : m ∈ s.outbox := by
  induction h with
  | refl => exact hm
  | make _ hx ih =>
    rcases mem_outbox_make hm with hm | rfl
    · exact ih hm
    · exact hx.elim
  | note _ _ _ ih => exact ih hm

/-- Without the check, a step reports no unreachable methods. -/
theorem mem_outbox_step {c : Setting ω} (hcheck : c.options.checkUnreachable = false)
    {g : CallGraph} (hm : .unreachable n ∈ (s.step c g).outbox) : .unreachable n ∈ s.outbox := by
  unfold step at hm
  split at hm
  · rcases mem_outbox_serveQueue hm with hm | hsends
    · exact hm
    · cases hsends with
      | call _ hm =>
        cases CallRule.yields_of_mem hm with
        | request h => cases h
      | field _ hm =>
        cases FieldRule.yields_of_mem hm with
        | request h => cases h
      | unreachable _ hcheck' =>
        rw [hcheck] at hcheck'
        cases hcheck'
  · exact hm

end Solver

namespace Run

variable [Weight ω] [DecidableEq ω]

/-! ### The nodes processed -/

/-- The node that the next tick processes, with the number of the solver, if it processes one. -/
def processing? (c : Setting ω) (elapsed : Nat) (r : Run ω) : Option (SolverId × Node) :=
  if r.isDue c && !c.options.isExhausted batch r.steps elapsed then
    (((r.refreshed c).solver? ⟨r.turn.solver⟩).bind Solver.upcoming?).map (⟨r.turn.solver⟩, ·)
  else none

/-- The nodes that are processed in so many ticks, in order, with the numbers of the solvers. -/
def processed (c : Setting ω) (elapsed : Nat) : Nat → Run ω → List (SolverId × Node)
  | 0, _ => []
  | n + 1, r =>
    if r.isRunning then
      (r.processing? c elapsed).toList ++ (r.tick c elapsed).processed c elapsed n
    else []

variable {c : Setting ω} {r : Run ω}

omit [Weight ω] [DecidableEq ω] in
/-- A tick processes what the solver that makes the step comes to next. -/
theorem processing?_eq_some_iff {x : SolverId × Node} :
    r.processing? c elapsed = some x ↔ r.isDue c = true ∧
      c.options.isExhausted batch r.steps elapsed = false ∧ x.1 = ⟨r.turn.solver⟩ ∧
      ∃ s, (r.refreshed c).solver? ⟨r.turn.solver⟩ = some s ∧ s.upcoming? = some x.2 := by
  obtain ⟨id, n⟩ := x
  unfold processing?
  split
  · next hstep =>
    simp only [and_eq_true, Bool.not_eq_true'] at hstep
    simp only [hstep, map_eq_some_iff, bind_eq_some_iff, Prod.mk.injEq]
    constructor
    · rintro ⟨n, ⟨s, hs, hn⟩, rfl, rfl⟩
      exact ⟨trivial, trivial, rfl, s, hs, hn⟩
    · rintro ⟨-, -, rfl, s, hs, hn⟩
      exact ⟨n, ⟨s, hs, hn⟩, rfl, rfl⟩
  · next hstep =>
    simp only [and_eq_true, Bool.not_eq_true', not_and] at hstep
    constructor
    · intro hnone
      cases hnone
    · rintro ⟨hdue, hleft, -⟩
      exact absurd hleft (hstep hdue)

/-! ### With the check and without -/

theorem stepSolver_checking {id : SolverId}
    (h : ∀ s, r.solver? id = some s → ∀ n ∈ s.upcoming?,
      c.program.isUnreachable n.stmt.method = false) :
    r.stepSolver (c.checking true) id = r.stepSolver (c.checking false) id := by
  have hstep : r.modifySolver id (fun s => s.step (c.checking true) r.graph) =
      r.modifySolver id fun s => s.step (c.checking false) r.graph :=
    modifySolver_congr fun s hs => Solver.step_checking c r.graph s (h s hs)
  simp only [stepSolver, hstep]
  rfl

/-- A tick that processes no node in a method said to be unreachable is the same with the check and
    without. -/
theorem tick_checking (h : ∀ x ∈ r.processing? (c.checking false) elapsed,
      c.program.isUnreachable x.2.stmt.method = false) :
    r.tick (c.checking true) elapsed = r.tick (c.checking false) elapsed := by
  rw [tick_eq, tick_eq]
  cases hdue : r.isDue (c.checking false) with
  | false =>
    have hdue' : r.isDue (c.checking true) = false := hdue
    rw [hdue']
    rfl
  | true =>
    have hdue' : r.isDue (c.checking true) = true := hdue
    rw [hdue', if_pos rfl, if_pos rfl]
    cases hleft : (c.checking false).options.isExhausted batch r.steps elapsed with
    | true =>
      have hleft' : (c.checking true).options.isExhausted batch r.steps elapsed = true := hleft
      rw [hleft']
      rfl
    | false =>
      have hleft' : (c.checking true).options.isExhausted batch r.steps elapsed = false := hleft
      rw [hleft', if_neg Bool.false_ne_true, if_neg Bool.false_ne_true]
      refine stepSolver_checking (r := (r.refreshed c).countStep) fun s hs n hn => ?_
      exact h (⟨r.turn.solver⟩, n) (processing?_eq_some_iff.2 ⟨hdue, hleft, rfl, s, hs, hn⟩)

theorem phase_stepSolver_checking {id : SolverId} {s : Solver ω} (hs : r.solver? id = some s)
    {n : Node} (hn : s.upcoming? = some n)
    (hunreachable : c.program.isUnreachable n.stmt.method = true) :
    (r.stepSolver (c.checking true) id).phase = .unsound n := by
  have hstep : ({ r.modifySolver id (fun s => s.step (c.checking true) r.graph) with
      steps := r.steps + 1 } : Run ω).solver? id = some (s.step (c.checking true) r.graph) := by
    show (r.modifySolver id _).solver? id = _
    rw [solver?_modifySolver, if_pos rfl, hs]
    rfl
  have hdeliver := deliver_eq (c := c.checking true) hstep
  rw [Solver.outbox_step_checking hn hunreachable, List.reverse_cons, foldl_append] at hdeliver
  -- The report is passed on last.
  exact congrArg Run.phase hdeliver

/-- If it is checked, a run fails at a node in a method said to be unreachable. -/
theorem phase_tick_checking {x : SolverId × Node}
    (hx : r.processing? (c.checking false) elapsed = some x)
    (hunreachable : c.program.isUnreachable x.2.stmt.method = true) :
    (r.tick (c.checking true) elapsed).phase = .unsound x.2 := by
  obtain ⟨hdue, hleft, -, s, hs, hn⟩ := processing?_eq_some_iff.1 hx
  have hdue' : r.isDue (c.checking true) = true := hdue
  have hleft' : (c.checking true).options.isExhausted batch r.steps elapsed = false := hleft
  rw [tick_eq, if_pos hdue', hleft', if_neg Bool.false_ne_true]
  exact phase_stepSolver_checking (r := (r.refreshed c).countStep) hs hn hunreachable

/-- A run that is checked fails at the first node in a method said to be unreachable that is
    processed without the check. -/
theorem advance_checking (c : Setting ω) (elapsed n : Nat) (r : Run ω) :
    (∃ x, (r.processed (c.checking false) elapsed n).find?
        (fun x => c.program.isUnreachable x.2.stmt.method) = some x ∧
      (r.advance (c.checking true) elapsed n).phase = .unsound x.2) ∨
    (r.processed (c.checking false) elapsed n).find?
        (fun x => c.program.isUnreachable x.2.stmt.method) = none ∧
      r.advance (c.checking true) elapsed n = r.advance (c.checking false) elapsed n := by
  induction n generalizing r with
  | zero => exact .inr ⟨rfl, rfl⟩
  | succ n ih =>
    cases hrunning : r.isRunning with
    | false =>
      rw [advance_of_not_running _ _ _ hrunning, advance_of_not_running _ _ _ hrunning]
      exact .inr ⟨by simp [processed, hrunning], rfl⟩
    | true =>
      rw [advance_succ_of_running _ _ _ hrunning, advance_succ_of_running _ _ _ hrunning]
      simp only [processed, hrunning, if_true, List.find?_append]
      cases hx : r.processing? (c.checking false) elapsed with
      | none =>
        rw [tick_checking (by simp [hx])]
        exact ih _
      | some x =>
        cases hunreachable : c.program.isUnreachable x.2.stmt.method with
        | false =>
          rw [tick_checking fun y hy => some.inj (hx.symm.trans hy) ▸ hunreachable]
          simpa [hunreachable] using ih (r.tick (c.checking false) elapsed)
        | true =>
          have hphase := phase_tick_checking hx hunreachable
          refine .inl ⟨x, by simp [hunreachable], ?_⟩
          rwa [advance_of_not_running _ _ _ (by simp [isRunning, hphase])]

/-! ### Without the check -/

/-- No solver has an unreachable method to report. -/
def Unalarmed (r : Run ω) : Prop := ∀ id s, r.solver? id = some s → ∀ n, .unreachable n ∉ s.outbox

namespace Unalarmed

theorem goesOn {r' : Run ω} (h : r.Unalarmed) (hr : GoesOn r r') : r'.Unalarmed := by
  intro id s' hs' n hm
  rcases hr.solvers hs' with ⟨s, hs, hmakes⟩ | ⟨-, direction, seed, hmakes⟩
  · exact h id s hs n (Solver.mem_outbox_of_makes hmakes hm)
  · exact absurd (Solver.mem_outbox_of_makes hmakes hm) not_mem_nil

omit [Weight ω] [DecidableEq ω] in
theorem modifySolver (h : r.Unalarmed) (id : SolverId) {f : Solver ω → Solver ω}
    (hf : ∀ s n, .unreachable n ∈ (f s).outbox → .unreachable n ∈ s.outbox) :
    (r.modifySolver id f).Unalarmed := by
  intro id' s' hs' n hm
  rcases solver?_modifySolver_cases hs' with ⟨s, rfl, hs, rfl⟩ | ⟨-, hs'⟩
  · exact h id s hs n (hf s n hm)
  · exact h id' s' hs' n hm

theorem refreshed (h : r.Unalarmed) (c : Setting ω) : (r.refreshed c).Unalarmed :=
  h.modifySolver _ fun s n hm => by rwa [Solver.outbox_refresh] at hm

/-- Messages of solvers that have no unreachable methods to report let a run go on. -/
theorem deliver (h : r.Unalarmed) (c : Setting ω) (id : SolverId) :
    (r.deliver c id).Unalarmed ∧ (r.deliver c id).phase = r.phase := by
  unfold Run.deliver
  refine List.foldlRecOn (motive := fun r' : Run ω => r'.Unalarmed ∧ r'.phase = r.phase) _ _ ?_
    fun r' hr' m hm => ?_
  · exact ⟨h.modifySolver id fun s n hn => (nomatch hn), rfl⟩
  · have hother : ∀ n, m ≠ .unreachable n := by
      rintro n rfl
      cases hs : r.solver? id with
      | none => simp [hs] at hm
      | some s => exact h id s hs n (by simpa [hs] using hm)
    have hgoes := goesOn_handle c r' id hother
    exact ⟨hr'.1.goesOn hgoes, hgoes.phase.trans hr'.2⟩

theorem stepSolver (hcheck : c.options.checkUnreachable = false) (h : r.Unalarmed)
    (id : SolverId) : (r.stepSolver c id).Unalarmed ∧ (r.stepSolver c id).phase = r.phase := by
  have hstep : (r.modifySolver id fun s => s.step c r.graph).Unalarmed :=
    h.modifySolver id fun s n hm => Solver.mem_outbox_step hcheck hm
  have hcount : Unalarmed { r.modifySolver id (fun s => s.step c r.graph) with
    steps := r.steps + 1 } := hstep
  exact hcount.deliver c id

/-- Without the check, a tick does not make a run fail. -/
theorem tick (hcheck : c.options.checkUnreachable = false) (h : r.Unalarmed)
    (hfailed : ¬r.Failed) (elapsed : Nat) :
    (r.tick c elapsed).Unalarmed ∧ ¬(r.tick c elapsed).Failed := by
  rw [tick_eq]
  split
  · next hdue =>
    obtain ⟨hrunning, -⟩ := exists_of_isDue hdue
    split
    · exact ⟨h.refreshed c, not_failed (show (r.stopped c).phase = .timedOut from rfl)⟩
    · have hcount : (r.refreshed c).countStep.Unalarmed := h.refreshed c
      obtain ⟨hstep, hphase⟩ := hcount.stepSolver hcheck ⟨r.turn.solver⟩
      exact ⟨hstep, not_failed (hphase.trans hrunning)⟩
  · unfold pass endRound
    split
    · exact ⟨h, hfailed⟩
    · split
      · split
        · exact ⟨h, hfailed⟩
        · exact ⟨h, not_failed rfl⟩
      · split
        · exact ⟨h, hfailed⟩
        · exact ⟨h.refreshed c, hfailed⟩

end Unalarmed

theorem unalarmed_begin (session : Session ω) (q : Query) : (session.begin q).Unalarmed := by
  have hempty : ({ graph := session.graph } : Run ω).Unalarmed := fun id s hs => by
    simp [solver?] at hs
  exact hempty.goesOn (standing_begin session q).toGoesOn

/-- Without the check, a run does not fail. -/
theorem not_failed_advance_unchecked (hcheck : c.options.checkUnreachable = false)
    (h : r.Unalarmed) (hfailed : ¬r.Failed) (elapsed n : Nat) :
    ¬(r.advance c elapsed n).Failed := by
  induction n generalizing r with
  | zero => exact hfailed
  | succ n ih =>
    rw [Run.advance]
    split
    · obtain ⟨h', hfailed'⟩ := h.tick hcheck hfailed elapsed
      exact ih h' hfailed'
    · exact hfailed

end Run

/-! ### Sessions -/

namespace Session

open Run

variable [Weight ω] [DecidableEq ω]

/-- A session in which it is checked whether methods are unreachable, or is not. -/
def checking (p : Program) (scope : Scope) (weighing : Weighing ω) (options : Options)
    (check : Bool) : Session ω :=
  start ⟨p, scope, weighing, { options with checkUnreachable := check }⟩

/-- The nodes that are processed in so many ticks of the run of the query, in order, with the
    numbers of the solvers. -/
def processed (session : Session ω) (q : Query) (elapsed ticks : Nat) : List (SolverId × Node) :=
  (session.begin q).processed session.setting elapsed ticks

theorem report_of_unsound (session : Session ω) (q : Query) {r : Run ω} {node : Node}
    (h : r.phase = .unsound node) : session.report q r = .error (.unsound node) := by
  cases q <;> simp [report, endBackward, endForward, failure?, h] <;> rfl

/-- The run that is checked fails at the first node in a method said to be unreachable, or there is
    no such node and the two runs end in the same way. -/
theorem answerAfter_checking (p : Program) (scope : Scope) (weighing : Weighing ω)
    (options : Options) (q : Query) (elapsed ticks : Nat) :
    (∃ x, ((checking p scope weighing options false).processed q elapsed ticks).find?
        (fun x => p.isUnreachable x.2.stmt.method) = some x ∧
      (checking p scope weighing options true).answerAfter q elapsed ticks =
        .error (.unsound x.2)) ∨
    ((checking p scope weighing options false).processed q elapsed ticks).find?
        (fun x => p.isUnreachable x.2.stmt.method) = none ∧
      (checking p scope weighing options true).after q elapsed ticks =
        (checking p scope weighing options false).after q elapsed ticks ∧
      ∃ answer,
        (checking p scope weighing options true).answerAfter q elapsed ticks = .ok answer ∧
        (checking p scope weighing options false).answerAfter q elapsed ticks = .ok answer := by
  have hbegin : (checking p scope weighing options true).begin q =
      (checking p scope weighing options false).begin q := by cases q <;> rfl
  rcases advance_checking ⟨p, scope, weighing, options⟩ elapsed ticks
    ((checking p scope weighing options false).begin q) with ⟨x, hfirst, hphase⟩ | ⟨hnone, heq⟩
  · have hphase' : ((checking p scope weighing options true).after q elapsed ticks).phase =
        .unsound x.2 := by
      rw [after, hbegin]
      exact hphase
    exact .inl ⟨x, hfirst, report_of_unsound _ q hphase'⟩
  · have hsame : (checking p scope weighing options true).after q elapsed ticks =
        (checking p scope weighing options false).after q elapsed ticks := by
      rw [after, hbegin]
      exact heq
    have hfailed : ¬((checking p scope weighing options false).after q elapsed ticks).Failed :=
      not_failed_advance_unchecked rfl (unalarmed_begin _ q)
        (not_failed (standing_begin _ q).phase) elapsed ticks
    obtain ⟨answer, hanswer, -⟩ := exists_report (checking p scope weighing options false) q hfailed
    refine .inr ⟨hnone, hsame, answer, ?_, hanswer⟩
    rw [answerAfter, hsame, ← hanswer]
    cases q <;> rfl

/-- A query whose run is checked is answered by the error that a method said to be unreachable was
    reached, at a certain node, if and only if that is the first node in such a method that is
    processed in its run without the check. The error tells of the node and of its method, and
    there is no other error. If no such node is processed, the two runs are the same, and so are
    their answers. This holds after any number of ticks. -/
theorem unsound_iff_first_unreachable (p : Program) (scope : Scope) (weighing : Weighing ω)
    (options : Options) (q : Query) (elapsed ticks : Nat) :
    (∀ node, (checking p scope weighing options true).answerAfter q elapsed ticks =
        .error (.unsound node) ↔
      ∃ id, ((checking p scope weighing options false).processed q elapsed ticks).find?
        (fun x => p.isUnreachable x.2.stmt.method) = some (id, node)) ∧
    (∀ error, (checking p scope weighing options true).answerAfter q elapsed ticks =
        .error error →
      ∃ node, error = .unsound node ∧ p.isUnreachable node.stmt.method = true ∧
        error.message = "Unsound result: reached " ++ node.render ++
          " in unreachable method " ++ node.stmt.method.text) ∧
    ((∃ error, (checking p scope weighing options true).answerAfter q elapsed ticks =
        .error error) ↔
      ∃ x ∈ (checking p scope weighing options false).processed q elapsed ticks,
        p.isUnreachable x.2.stmt.method = true) ∧
    ((∀ x ∈ (checking p scope weighing options false).processed q elapsed ticks,
        p.isUnreachable x.2.stmt.method = false) →
      (checking p scope weighing options true).after q elapsed ticks =
        (checking p scope weighing options false).after q elapsed ticks ∧
      ∃ answer,
        (checking p scope weighing options true).answerAfter q elapsed ticks = .ok answer ∧
        (checking p scope weighing options false).answerAfter q elapsed ticks = .ok answer) := by
  rcases answerAfter_checking p scope weighing options q elapsed ticks with
    ⟨x, hfirst, herror⟩ | ⟨hnone, hsame, answer, hanswer, hanswer'⟩
  · have hmem : x ∈ (checking p scope weighing options false).processed q elapsed ticks :=
      List.mem_of_find?_eq_some hfirst
    have hunreachable : p.isUnreachable x.2.stmt.method = true := by
      simpa using List.find?_some hfirst
    refine ⟨fun node => ⟨fun h => ?_, ?_⟩, fun error h => ?_,
      ⟨fun _ => ⟨x, hmem, hunreachable⟩, fun _ => ⟨_, herror⟩⟩, fun hall => ?_⟩
    · cases herror.symm.trans h
      exact ⟨x.1, hfirst⟩
    · rintro ⟨id, hid⟩
      cases hfirst.symm.trans hid
      exact herror
    · cases herror.symm.trans h
      exact ⟨x.2, rfl, hunreachable, rfl⟩
    · rw [hall x hmem] at hunreachable
      cases hunreachable
  · have hclear : ∀ x ∈ (checking p scope weighing options false).processed q elapsed ticks,
        p.isUnreachable x.2.stmt.method ≠ true := List.find?_eq_none.1 hnone
    have hnoError : ∀ error, (checking p scope weighing options true).answerAfter q elapsed ticks ≠
        .error error := fun error h => by cases hanswer.symm.trans h
    refine ⟨fun node => ⟨fun h => absurd h (hnoError _), ?_⟩,
      fun error h => absurd h (hnoError error), ⟨?_, ?_⟩,
      fun _ => ⟨hsame, answer, hanswer, hanswer'⟩⟩
    · rintro ⟨id, hid⟩
      cases hnone.symm.trans hid
    · rintro ⟨error, h⟩
      exact absurd h (hnoError error)
    · rintro ⟨x, hx, hunreachable⟩
      exact absurd hunreachable (hclear x hx)

end Session

/-! ### An example -/

namespace Alarm

/-- The method that is said to be unreachable. -/
def use : MethodName := ⟨"Dead.use"⟩

def param : Local := ⟨use, "v"⟩

def var : Local := ⟨⟨"Main.main"⟩, "x"⟩

/-- An object is passed to a method that is said to be unreachable. -/
def program : Program where
  classes := []
  methods := [.ofActions use none [param] [.ret none], .ofActions ⟨"Main.main"⟩ none []
    [.assign var (.alloc ⟨"X"⟩), .call ⟨.static use, [.var var]⟩, .ret none]]
  unreachable := [use]

/-- Where does the object get to? -/
def query : ForwardQuery := ⟨⟨⟨⟨"Main.main"⟩, 0, .assign var (.alloc ⟨"X"⟩)⟩, var⟩, rfl⟩

/-- It is passed. -/
def node : Node := ⟨⟨use, 0, .ret none⟩, param⟩

def session (check : Bool) : Session Trail := .checking program .everything .trail {} check

theorem phase_after : ((session true).after (.forward query) 0 100).phase = .unsound node := by
  have hgraph : (session true).graph.ListedBy (hierarchyEdges program) :=
    listedBy_classHierarchy program
  have hlisted := (Run.listedBy_begin hgraph (.forward query)).advance
    (c := (session true).setting) 0 100
  exact hlisted.phase.trans (by decide +kernel)

end Alarm

/-- It is an error to get to a method that is said to be unreachable, and without the check the
    node is processed. -/
theorem Session.unsound_alarm :
    (Alarm.session true).answerAfter (.forward Alarm.query) 0 100 = .error (.unsound Alarm.node) ∧
    ∃ id, ((Alarm.session false).processed (.forward Alarm.query) 0 100).find?
      (fun x => Alarm.program.isUnreachable x.2.stmt.method) = some (id, Alarm.node) := by
  have herror := report_of_unsound (Alarm.session true) (.forward Alarm.query) Alarm.phase_after
  obtain ⟨hfirst, -⟩ := unsound_iff_first_unreachable Alarm.program .everything .trail {}
    (.forward Alarm.query) 0 100
  exact ⟨herror, (hfirst Alarm.node).1 herror⟩

end DemandAlias
