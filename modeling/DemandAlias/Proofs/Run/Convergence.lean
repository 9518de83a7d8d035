import DemandAlias.Analysis.Session
import DemandAlias.Proofs.Run.Handling

/-!
# Converged runs

A run that has converged has done everything: the last round found all solvers idle,
and none of them has missed an edge of the call graph, since nothing happened after it
looked (`Reachable.complete`).
-/

namespace DemandAlias.Run

variable {ω : Type} {id : SolverId} {s : Solver ω} {r : Run ω} {c : Setting ω}
  {waiting waiting' : SolverId → Message → Prop}

theorem not_failed {phase : Phase} (h : r.phase = phase) (hp : ∀ n, phase ≠ .unsound n := by simp) :
    ¬r.Failed := by
  rintro ⟨n, hn⟩
  exact hp n (h.symm.trans hn)

/-- A solver that is not idle has a queue to serve. -/
theorem exists_turn? (h : s.isIdle = false) :
    ∃ queue, s.turn? = some queue ∧ s.hasWork queue = true := by
  have hsome : s.turn?.isSome = true := by
    rw [Solver.turn?, List.find?_isSome]
    have hall : ∀ queue, queue ∈ [s.last.next, s.last.next.next, s.last] := by
      intro queue
      cases s.last <;> cases queue <;> decide
    have hwork : ∃ queue, s.hasWork queue = true := by
      refine Classical.byContradiction fun hnone => ?_
      simp only [not_exists, Bool.not_eq_true] at hnone
      simp [Solver.isIdle, hnone] at h
    exact hwork.imp fun queue hqueue => ⟨hall queue, hqueue⟩
  obtain ⟨queue, hturn⟩ := isSome_iff_exists.1 hsome
  exact ⟨queue, hturn, List.find?_some hturn⟩

theorem modifySolver_congr {f f' : Solver ω → Solver ω}
    (h : ∀ s, r.solver? id = some s → f s = f' s) : r.modifySolver id f = r.modifySolver id f' := by
  have hsolvers : r.solvers.modify id.index f = r.solvers.modify id.index f' := by
    refine Array.ext_getElem? fun i => ?_
    simp only [Array.getElem?_modify]
    split
    · next heq =>
      subst heq
      exact Option.map_congr fun s hs => h s hs
    · rfl
  rw [modifySolver, hsolvers, modifySolver]

theorem modifySolver_modifySolver (r : Run ω) (id : SolverId) (f f' : Solver ω → Solver ω) :
    (r.modifySolver id f).modifySolver id f' = r.modifySolver id fun s => f' (f s) := by
  have hsolvers : (r.solvers.modify id.index f).modify id.index f' =
      r.solvers.modify id.index fun s => f' (f s) := by
    refine Array.ext_getElem? fun i => ?_
    simp only [Array.getElem?_modify]
    split
    · rw [Option.map_map]
      rfl
    · rfl
  simp only [modifySolver, hsolvers]

variable [Weight ω] [DecidableEq ω]

/-! ### Runs that come up -/

/-- The run comes up in answering a query, in a session with any call graph. -/
inductive Reachable (c : Setting ω) : Run ω → Prop
  | backward (graph : CallGraph) (q : BackwardQuery) :
    Reachable c (Session.beginBackward { setting := c, graph } q)
  | forward (graph : CallGraph) (q : ForwardQuery) :
    Reachable c (Session.beginForward { setting := c, graph } q)
  | tick {r : Run ω} (elapsed : Nat) (h : Reachable c r) : Reachable c (r.tick c elapsed)

theorem Reachable.advance {c : Setting ω} {r : Run ω} (h : Reachable c r) (elapsed n : Nat) :
    Reachable c (r.advance c elapsed n) := by
  induction n generalizing r with
  | zero => exact h
  | succ n ih =>
    rw [Run.advance]
    split
    · exact ih (h.tick elapsed)
    · exact h

/-- Nothing waits. -/
abbrev Nothing (_ : SolverId) (_ : Message) : Prop := False

/-- Messages that are handled do not wait any more. -/
theorem Kept.forget (h : r.Kept c waiting)
    (hw : ∀ id m, waiting id m → waiting' id m ∨ r.Handled c id m) :
    r.Kept c waiting' :=
  { h with kept := fun hs => (h.kept hs).mono_sent fun m hm => hm.elim (hw _ m) .inr }

/-! ### Delivering messages -/

theorem deliver_eq (hs : r.solver? id = some s) :
    r.deliver c id = s.outbox.reverse.foldl (fun r m => r.handle c id m)
      (r.modifySolver id fun s => { s with outbox := [] }) := by
  rw [deliver, hs]
  rfl

/-- Lets the solver with this number serve a queue. -/
def serveSolver (c : Setting ω) (r : Run ω) (id : SolverId) (queue : WorkQueue) : Run ω :=
  { r.modifySolver id (fun s => s.serveQueue c r.graph queue) with
    steps := r.steps + 1 }.deliver c id

/-- A step of a solver serves the queue whose turn it is. -/
theorem stepSolver_eq (hs : r.solver? id = some s) {queue : WorkQueue}
    (hturn : s.turn? = some queue) : r.stepSolver c id = r.serveSolver c id queue := by
  have hstep : r.modifySolver id (fun s => s.step c r.graph) =
      r.modifySolver id fun s => s.serveQueue c r.graph queue :=
    modifySolver_congr fun s' hs' => by
      cases hs.symm.trans hs'
      rw [Solver.step, hturn]
      rfl
  rw [stepSolver, serveSolver, ← hstep]
  rfl

/-- The run in which the solver with this number has served a queue, with its messages taken out. -/
def takeOut (c : Setting ω) (r : Run ω) (id : SolverId) (queue : WorkQueue) : Run ω :=
  { r.modifySolver id (fun s => { s.serveQueue c r.graph queue with outbox := [] }) with
    steps := r.steps + 1 }

theorem serveSolver_eq (hs : r.solver? id = some s) (queue : WorkQueue) :
    r.serveSolver c id queue = (s.serveQueue c r.graph queue).outbox.reverse.foldl
      (fun r m => r.handle c id m) (r.takeOut c id queue) := by
  have hsolver : Run.solver? { r.modifySolver id (fun s => s.serveQueue c r.graph queue) with
      steps := r.steps + 1 } id = some (s.serveQueue c r.graph queue) := by
    show (r.modifySolver id _).solver? id = _
    rw [solver?_modifySolver, if_pos rfl, hs]
    rfl
  have htake := modifySolver_modifySolver r id (fun s => s.serveQueue c r.graph queue)
    fun s => { s with outbox := [] }
  rw [serveSolver, deliver_eq hsolver]
  exact congrArg (fun r₁ : Run ω => (s.serveQueue c r.graph queue).outbox.reverse.foldl
    (fun r m => r.handle c id m) { r₁ with steps := r.steps + 1 }) htake

/-! ### Ticks -/

theorem tick_of_not_running (c : Setting ω) (elapsed : Nat) (h : r.phase ≠ .running) :
    r.tick c elapsed = r := by
  simp [Run.tick, isRunning, h]

/-- Counts a step of the solver that has its turn. -/
def countStep (r : Run ω) : Run ω :=
  { r with turn := { r.turn with made := r.turn.made + 1, progressed := true } }

/-- What a tick does: it ends a round, or the turn of a solver that has made all its steps, or it
    lets a solver catch up with the call graph. In the last case, it ends the turn of the solver if
    there is nothing to do, or lets it serve one of its queues if that is allowed. -/
theorem tick_cases (c : Setting ω) (elapsed : Nat) (hrunning : r.phase = .running) :
    (r.solvers.size ≤ r.turn.solver ∧ r.tick c elapsed = r.endRound) ∨
    (r.turn.solver < r.solvers.size ∧ batch ≤ r.turn.made ∧ r.tick c elapsed = r.endTurn) ∨
    ∃ s, r.turn.solver < r.solvers.size ∧
      ∃ r₁, r₁ = r.modifySolver ⟨r.turn.solver⟩ (fun s => s.refresh c r.graph) ∧
        r₁.solver? ⟨r.turn.solver⟩ = some s ∧
        (s.isIdle = true ∧ r.tick c elapsed = r₁.endTurn ∨
          c.options.isExhausted batch r₁.steps elapsed = true ∧
            r.tick c elapsed = { r₁ with phase := .timedOut } ∨
          ∃ queue, s.hasWork queue = true ∧
            r.tick c elapsed = r₁.countStep.serveSolver c ⟨r.turn.solver⟩ queue) := by
  have hgo : r.isRunning = true := by simp [isRunning, hrunning]
  simp only [Run.tick, hgo, Bool.not_true, Bool.false_eq_true, if_false]
  by_cases hall : r.solvers.size ≤ r.turn.solver
  · exact .inl ⟨hall, if_pos hall⟩
  have hlt : r.turn.solver < r.solvers.size := Nat.lt_of_not_le hall
  rw [if_neg hall]
  by_cases hmade : batch ≤ r.turn.made
  · exact .inr (.inl ⟨hlt, hmade, if_pos hmade⟩)
  rw [if_neg hmade]
  obtain ⟨r₁, hr₁⟩ : ∃ r₁, r₁ = r.modifySolver ⟨r.turn.solver⟩ fun s => s.refresh c r.graph :=
    ⟨_, rfl⟩
  have hs : r₁.solver? ⟨r.turn.solver⟩ = some (r.solvers[r.turn.solver].refresh c r.graph) := by
    rw [hr₁, solver?_modifySolver, if_pos rfl, solver?, Array.getElem?_eq_getElem hlt]
    rfl
  refine .inr (.inr ⟨_, hlt, r₁, hr₁, hs, ?_⟩)
  simp only [Run.continueTurn, ← hr₁, hs, Option.all_some]
  split
  · next hidle => exact .inl ⟨hidle, rfl⟩
  · next hbusy =>
    split
    · next hexhausted => exact .inr (.inl ⟨hexhausted, rfl⟩)
    · obtain ⟨queue, hturn, hwork⟩ := exists_turn? (eq_false_iff.2 hbusy)
      exact .inr (.inr ⟨queue, hwork, stepSolver_eq (r := r₁.countStep) hs hturn⟩)

/-! ### The schedule -/

/-- The solver has nothing to do, and has seen the whole call graph. -/
def Rests (r : Run ω) (s : Solver ω) : Prop := s.isIdle = true ∧ s.edgesSeen = r.graph.size

/-- What a run keeps to between ticks. As long as no solver has made a step in a round,
    those that have had their turn rest. -/
structure Orderly (c : Setting ω) (r : Run ω) : Prop extends Kept c Nothing r where
  behind : r.turn.progressed = false → r.turn.made = 0 ∧
    ∀ {id s}, id.index < r.turn.solver → r.solver? id = some s → r.Rests s
  finished : r.phase = .converged → ∀ {id s}, r.solver? id = some s → r.Rests s

/-! ### The first run -/

/-- A run without solvers keeps to everything. -/
theorem kept_empty (c : Setting ω) (graph : CallGraph) :
    ({ graph } : Run ω).Kept c Nothing where
  kept hs := by simp [solver?] at hs
  within hs := by simp [solver?] at hs
  quiet hs := by simp [solver?] at hs
  started hs := by simp [solver?] at hs
  ids hq := by simp at hq
  subscribed hk := by simp [get_empty] at hk
  installed hx := absurd hx Std.HashSet.not_mem_empty
  notified _ _ _ hk := by simp [get_empty] at hk
  sites hsite := absurd hsite Std.HashSet.not_mem_empty
  methods hmethod := absurd hmethod Std.HashSet.not_mem_empty

/-- A run is orderly before its first tick. -/
theorem orderly_of_proceeds {graph : CallGraph} (h : Proceeds c Nothing { graph } r) :
    r.Orderly c := by
  refine ⟨h.kept, fun _ => ?_, fun hconverged => ?_⟩
  · rw [h.clock.turn]
    exact ⟨rfl, fun hid => absurd hid (Nat.not_lt_zero _)⟩
  · rcases h.clock.phase with heq | ⟨n, hn⟩
    · cases heq.symm.trans hconverged
    · cases hn.symm.trans hconverged

theorem withSolver_empty (graph : CallGraph) (q : Query) :
    ({ graph } : Run ω).withSolver q = (create { graph } q, ⟨0⟩) := by
  rcases withSolver_cases ({ graph } : Run ω) q with ⟨id, hid, -⟩ | ⟨-, heq⟩
  · simp at hid
  · exact heq

theorem solver?_beginForward (session : Session ω) (q : ForwardQuery) (id : SolverId) :
    (session.beginForward q).solver? id =
      if id.index = 0 then some (.start ⟨0⟩ .forward q.node) else none := by
  rw [Session.beginForward, withSolver_empty]
  exact (solver?_create ..).trans (by simp [solver?, Query.direction, Query.node])

/-! ### Converged runs -/

/-- A solver that has nothing left to do: every rule has dealt with every transition of its topic,
    and every node reached is processed, with all edges of the call graph `g` that it waits for. -/
structure Finished (c : Setting ω) (g : CallGraph) (sent : Message → Prop) (s : Solver ω) :
    Prop where
  sound : s.Sound
  quiet : s.outbox = []
  idle : s.pending.toList = []
  reported : ∀ {n}, n ∈ s.reached → Solver.IsReported c n = false
  call : ∀ {topic rule t}, s.calls.Listens topic rule → t ∈ s.calls.transitions →
    topic ∈ t.topics → s.CallDone c sent rule t
  field : ∀ {topic rule t}, s.fields.Listens topic rule → t ∈ s.fields.transitions →
    topic ∈ t.topics → s.FieldDone sent rule t
  node : ∀ {n}, n ∈ s.reached → c.scope.excludes n.stmt.method = false →
    (∀ x ∈ s.nodeChanges c.program n, s.Made sent x) ∧
      ∀ x ∈ (s.flowAt c.program n).crossings, s.Made sent (.message (.wanted x)) ∧
        ∀ e ∈ x.edges g, ∀ y ∈ x.changes c s.direction n e, s.Made sent y

/-- A solver that rests has nothing left to do, unless the run has failed. -/
theorem Kept.finished (h : r.Kept c Nothing) (hfailed : ¬r.Failed) (hs : r.solver? id = some s)
    (hrests : r.Rests s) : Finished c r.graph (r.Handled c id) s := by
  have hkept := (h.kept hs).mono_sent fun m hm => hm.resolve_left fun hm => hm
  obtain ⟨hidle, hseen⟩ := hrests
  simp only [Solver.isIdle, Solver.hasWork, and_eq_true, Bool.not_eq_eq_eq_not,
    Bool.not_true] at hidle
  obtain ⟨⟨hcalls, hfields⟩, hpending⟩ := hidle
  rw [Bool.not_false, Queue.isEmpty_iff] at hpending
  have hnodes : ∀ {n}, n ∈ s.reached → Solver.IsReported c n = false ∧
      (c.scope.excludes n.stmt.method = true ∨
        (∀ x ∈ s.nodeChanges c.program n, s.Made (r.Handled c id) x) ∧
          ∀ x ∈ (s.flowAt c.program n).crossings, n ∈ s.watches.nodes x) := by
    intro n hn
    rcases (hkept.settled.nodes hn).resolve_left (by simp [hpending]) with hu | hdone
    · rcases hu with hm | hfail
      · rw [h.quiet hs] at hm
        cases hm
      · exact absurd hfail hfailed
    · exact hdone
  refine ⟨hkept.sound, h.quiet hs, hpending, fun hn => (hnodes hn).1,
    hkept.settled.calls.done_of_idle hcalls, hkept.settled.fields.done_of_idle hfields,
    fun {n} hn hincluded => ?_⟩
  rcases (hnodes hn).2 with hexcluded | hdone
  · rw [hincluded] at hexcluded
    cases hexcluded
  · refine ⟨hdone.1, fun x hx => ?_⟩
    have hn := hdone.2 x hx
    have hwatched := hkept.watching.watched hn
    refine ⟨hkept.watching.wanted hwatched, fun e he => hkept.watching.crossed hn e ?_⟩
    rwa [List.take_of_length_le (hkept.fresh hseen x hwatched)]

/-- In a converged run, every solver has nothing left to do. -/
theorem Orderly.converged (h : r.Orderly c) (hconverged : r.phase = .converged)
    (hs : r.solver? id = some s) : Finished c r.graph (r.Handled c id) s :=
  h.toKept.finished (not_failed hconverged) hs (h.finished hconverged hs)

/-- A run all of whose solvers have nothing left to do. -/
structure Complete (c : Setting ω) (r : Run ω) : Prop extends Kept c Nothing r where
  finished : ∀ {id s}, r.solver? id = some s → Finished c r.graph (r.Handled c id) s

/-- In a complete run, all messages are handled. -/
theorem Complete.handled (h : r.Complete c) (hs : r.solver? id = some s) {m : Message}
    (hm : s.Made (r.Handled c id) (.message m)) : r.Handled c id m :=
  hm.resolve_left fun hm => by
    rw [h.quiet hs] at hm
    cases hm

/-! ### What is kept to -/

variable [ZeroFree ω]

/-- Passing on the first of the messages that wait leaves the others. -/
theorem Kept.handle_first {m : Message} {ms : List Message}
    (h : r.Kept c fun id' m' => id' = id ∧ m' ∈ m :: ms) (hid : id.index < r.solvers.size)
    (hm : m.Legit r.solvers.size) :
    Proceeds c (fun id' m' => id' = id ∧ m' ∈ ms) r (r.handle c id m) := by
  obtain ⟨hp, hhandled⟩ := h.handle hid hm
  refine { hp with kept := hp.kept.forget fun id' m' hm' => ?_ }
  rcases mem_cons.1 hm'.2 with rfl | hmem
  · exact .inr (hm'.1 ▸ hhandled)
  · exact .inl ⟨hm'.1, hmem⟩

theorem Kept.foldl_handle {ms : List Message} (h : r.Kept c fun id' m => id' = id ∧ m ∈ ms)
    (hid : id.index < r.solvers.size) (hms : ∀ m ∈ ms, m.Legit r.solvers.size) :
    Proceeds c Nothing r (ms.foldl (fun r m => r.handle c id m) r) := by
  induction ms generalizing r with
  | nil => exact .refl (h.forget fun _ _ hm => absurd hm.2 not_mem_nil)
  | cons m _ ih =>
    have hp := h.handle_first hid (hms m mem_cons_self)
    have hrest := ih hp.kept (Nat.lt_of_lt_of_le hid hp.grows.size_le) fun m' hm' =>
      (hms m' (mem_cons_of_mem _ hm')).mono hp.grows.size_le
    exact ⟨hrest.kept, hp.grows.trans hrest.grows, hp.clock.trans hrest.clock⟩

/-- Serving a queue keeps to everything while the messages wait. -/
theorem Kept.takeOut (hc : c.weighing.ZeroFree) (h : r.Kept c Nothing) {served : Solver ω}
    (hs : r.solver? id = some s) (queue : WorkQueue)
    (hserved : served = s.serveQueue c r.graph queue) :
    Proceeds c (fun id' m => id' = id ∧ m ∈ served.outbox.reverse) r (r.takeOut c id queue) ∧
      ∀ m ∈ served.outbox.reverse, m.Legit (r.takeOut c id queue).solvers.size := by
  obtain ⟨hkept, hgrown⟩ := (h.kept hs).serveQueue hc queue
  have hwithin := (h.within hs).serveQueue hc (legit_closed c r.graph s _) (h.kept hs).sound queue
  rw [← hserved] at hkept hgrown hwithin
  have hsolver : ∀ id', (r.takeOut c id queue).solver? id' = if id = id' then
      some { served with outbox := [] } else r.solver? id' := by
    intro id'
    show (r.modifySolver id _).solver? id' = _
    rw [solver?_modifySolver]
    split
    · next heq => rw [← heq, hs, hserved]; rfl
    · rfl
  have hsize : (r.takeOut c id queue).solvers.size = r.solvers.size := size_modifySolver ..
  have hgrows : Grows r (r.takeOut c id queue) := by
    refine { Grows.refl r with solvers := fun {id' s'} hs' => ?_ }
    rw [hsolver]
    split
    · next heq =>
      subst heq
      cases hs.symm.trans hs'
      exact ⟨_, rfl, { hgrown with }⟩
    · exact ⟨s', hs', .refl s'⟩
  -- What the outbox had is waiting now, so the solver is still settled.
  have hcore : (r.takeOut c id queue).Core c fun id' m => id' = id ∧ m ∈ served.outbox.reverse := by
    refine h.of_continues hgrows (Nat.le_of_eq hsize.symm) (fun {id' s'} hs' => ?_) .inl .inl .inl
    rw [hsolver] at hs'
    split at hs'
    · next heq =>
      subst heq
      cases hs'
      exact .before hs { hgrown with } (hkept.deliver fun m hm => hm.elim
        (fun hm => .inr (.inl ⟨rfl, mem_reverse.2 hm⟩)) fun hm => hm.elim False.elim
          fun hm => .inr (.inr hm)) { hwithin with message := fun hm => nomatch hm }
        rfl
    · exact h.continues hs' fun _ hm => hm.elim
  have hbooks : SameBooks r (r.takeOut c id queue) := ⟨⟨rfl, rfl⟩, rfl, rfl⟩
  refine ⟨⟨{ hcore with
      notified := h.notified.mono hgrows hbooks
      sites := fun hsite => (h.sites (hbooks.sites ▸ hsite)).mono hgrows
      methods := fun hmethod site hsite =>
        (h.methods (hbooks.methods ▸ hmethod) site hsite).mono hgrows }, hgrows, rfl, .inl rfl⟩,
    fun m hm => ?_⟩
  rw [hsize]
  exact hwithin.message (mem_reverse.1 hm)

/-- Serving a queue, with the messages passed on, keeps to everything. -/
theorem Kept.serveSolver (hc : c.weighing.ZeroFree) (h : r.Kept c Nothing)
    (hs : r.solver? id = some s) (queue : WorkQueue) :
    Proceeds c Nothing r (r.serveSolver c id queue) := by
  obtain ⟨hp, hlegit⟩ := h.takeOut hc hs queue rfl
  have hp' := hp.kept.foldl_handle (Nat.lt_of_lt_of_le (index_lt hs) hp.grows.size_le) hlegit
  rw [serveSolver_eq hs]
  exact ⟨hp'.kept, hp.grows.trans hp'.grows, hp.clock.trans hp'.clock⟩

theorem Kept.note {r' : Run ω} (h : r.Kept c waiting) (hgrows : Grows r r')
    (hsolvers : r'.solvers = r.solvers) (hids : r'.ids = r.ids) (hbooks : SameBooks r r')
    (hregistered : r'.registered = r.registered) : r'.Kept c waiting where
  toCore := h.toCore.note hgrows hsolvers hids (fun hk => .inl (hbooks.subscribers ▸ hk))
    hregistered
  notified := h.notified.mono hgrows hbooks
  sites hsite := (h.sites (hbooks.sites ▸ hsite)).mono hgrows
  methods hmethod site hsite := (h.methods (hbooks.methods ▸ hmethod) site hsite).mono hgrows

/-- The run `r'` is orderly and has all that `r` has. -/
structure Advances (c : Setting ω) (r r' : Run ω) : Prop where
  orderly : r'.Orderly c
  grows : Grows r r'

theorem Orderly.endRound (h : r.Orderly c) (hrunning : r.phase = .running)
    (hall : r.solvers.size ≤ r.turn.solver) : Advances c r r.endRound := by
  unfold Run.endRound
  split
  · have hgrows : Grows r { r with turn := {} } := { Grows.refl r with }
    refine ⟨⟨h.toKept.note hgrows rfl rfl ⟨⟨rfl, rfl⟩, rfl, rfl⟩ rfl, fun _ => ⟨rfl, fun hid => ?_⟩,
      fun hp => ?_⟩, hgrows⟩
    · exact absurd hid (Nat.not_lt_zero _)
    · exact h.finished hp
  · next hprogressed =>
    have hgrows : Grows r { r with phase := .converged } :=
      { Grows.refl r with failed := fun hf => absurd hf (not_failed hrunning) }
    have hbehind := h.behind (eq_false_iff.2 hprogressed)
    exact ⟨⟨h.toKept.note hgrows rfl rfl ⟨⟨rfl, rfl⟩, rfl, rfl⟩ rfl, fun _ => hbehind,
      fun _ {id s} hs => hbehind.2 (Nat.lt_of_lt_of_le (index_lt hs) hall) hs⟩, hgrows⟩

theorem Orderly.endTurn (h : r.Orderly c) (hrunning : r.phase = .running)
    (hrests : r.turn.progressed = false → ∀ {s}, r.solver? ⟨r.turn.solver⟩ = some s → r.Rests s) :
    Advances c r r.endTurn := by
  have hgrows : Grows r r.endTurn := { Grows.refl r with }
  refine ⟨⟨h.toKept.note hgrows rfl rfl ⟨⟨rfl, rfl⟩, rfl, rfl⟩ rfl, fun hp => ⟨rfl, fun {id s} hid hs => ?_⟩,
    fun hp => ?_⟩, hgrows⟩
  · rcases Nat.lt_or_eq_of_le (Nat.le_of_lt_succ hid) with hlt | heq
    · exact (h.behind hp).2 hlt hs
    · obtain ⟨i⟩ := id
      exact hrests hp (heq ▸ hs)
  · cases hrunning.symm.trans hp

/-- Catching up with the call graph keeps to everything. -/
theorem Kept.refreshSolver (h : r.Kept c waiting) (id : SolverId) :
    Proceeds c waiting r (r.modifySolver id fun s => s.refresh c r.graph) := by
  have hgrows : Grows r (r.modifySolver id fun s => s.refresh c r.graph) :=
    grows_modifySolver r _ fun s hs => (h.kept hs).refresh.2.2
  have hcore := h.toCore.modifySolver id (fun s hs => ⟨(h.kept hs).refresh.2.2,
    (h.kept hs).refresh.1, (h.within hs).refresh (legit_closed c r.graph s _) (h.kept hs).sound,
    (Solver.outbox_refresh ..).trans (h.quiet hs)⟩) fun _ _ _ hm => hm
  exact h.of_notified ⟨hcore, hgrows, rfl, .inl rfl⟩
    (h.notified.mono hgrows ⟨⟨rfl, rfl⟩, rfl, rfl⟩) ⟨rfl, rfl⟩

/-- Catching up with the call graph, in its turn, leaves the solvers that have had theirs alone. -/
theorem Orderly.refreshSolver (h : r.Orderly c) (hrunning : r.phase = .running) :
    Advances c r (r.modifySolver ⟨r.turn.solver⟩ fun s => s.refresh c r.graph) := by
  have hp := h.toKept.refreshSolver ⟨r.turn.solver⟩
  refine ⟨⟨hp.kept, fun hprogressed => ⟨(h.behind hprogressed).1, fun {id s} hid hs => ?_⟩,
    fun hconverged => ?_⟩, hp.grows⟩
  · rw [solver?_modifySolver, if_neg] at hs
    · exact (h.behind hprogressed).2 hid hs
    · rintro rfl
      exact absurd hid (Nat.lt_irrefl _)
  · cases hrunning.symm.trans hconverged

theorem Orderly.countStep (h : r.Orderly c) : Advances c r r.countStep := by
  have hgrows : Grows r r.countStep := { Grows.refl r with }
  exact ⟨⟨h.toKept.note hgrows rfl rfl ⟨⟨rfl, rfl⟩, rfl, rfl⟩ rfl, (fun hp => by cases hp),
    h.finished⟩, hgrows⟩

section

variable (hc : c.weighing.ZeroFree) (h : r.Orderly c)
include hc h

/-- Serving a queue is progress. -/
theorem Orderly.serveSolver (hrunning : r.phase = .running)
    (hprogressed : r.turn.progressed = true) (hs : r.solver? id = some s) (queue : WorkQueue) :
    Advances c r (r.serveSolver c id queue) := by
  have hp := h.toKept.serveSolver hc hs queue
  refine ⟨⟨hp.kept, fun hstill => ?_, fun hconverged => ?_⟩, hp.grows⟩
  · rw [hp.clock.turn, hprogressed] at hstill
    cases hstill
  · rcases hp.clock.phase with heq | ⟨n, hn⟩
    · rw [heq, hrunning] at hconverged
      cases hconverged
    · cases hn.symm.trans hconverged

/-- A tick keeps to everything. -/
theorem Orderly.tick (elapsed : Nat) : Advances c r (r.tick c elapsed) := by
  by_cases hrunning : r.phase = .running
  · rcases tick_cases c elapsed hrunning with
      ⟨hall, heq⟩ | ⟨hlt, hmade, heq⟩ | ⟨s, hlt, r₁, hr₁, hs, hend⟩
    · rw [heq]
      exact h.endRound hrunning hall
    · rw [heq]
      refine h.endTurn hrunning fun hp => ?_
      rw [(h.behind hp).1] at hmade
      exact absurd hmade (by decide)
    obtain ⟨h₁, hgrows⟩ : Advances c r r₁ := hr₁ ▸ h.refreshSolver hrunning
    have hturn : r₁.turn = r.turn := by rw [hr₁]; rfl
    have hrunning₁ : r₁.phase = .running := by rw [hr₁]; exact hrunning
    -- The solver has seen all edges, so it rests if it has nothing to do.
    have hseen : s.edgesSeen = r₁.graph.size := by
      rw [hr₁, solver?_modifySolver, if_pos rfl] at hs
      obtain ⟨s₀, hs₀, rfl⟩ := map_eq_some_iff.1 hs
      rw [hr₁]
      exact (h.kept hs₀).refresh.2.1
    rcases hend with ⟨hidle, heq⟩ | ⟨-, heq⟩ | ⟨queue, -, heq⟩
    · obtain ⟨h₂, hgrows₂⟩ := h₁.endTurn hrunning₁ fun _ {s'} hs' => by
        rw [hturn] at hs'
        cases hs.symm.trans hs'
        exact ⟨hidle, hseen⟩
      exact heq ▸ ⟨h₂, hgrows.trans hgrows₂⟩
    · have hgrows₂ : Grows r₁ { r₁ with phase := .timedOut } :=
        { Grows.refl _ with failed := fun hf => absurd hf (not_failed hrunning₁) }
      refine heq ▸ ⟨⟨h₁.toKept.note hgrows₂ rfl rfl ⟨⟨rfl, rfl⟩, rfl, rfl⟩ rfl, h₁.behind,
        fun hp => ?_⟩, hgrows.trans hgrows₂⟩
      cases hp
    · obtain ⟨h₂, hgrows₂⟩ := h₁.countStep
      obtain ⟨h₃, hgrows₃⟩ := h₂.serveSolver hc hrunning₁ rfl hs queue
      exact heq ▸ ⟨h₃, (hgrows.trans hgrows₂).trans hgrows₃⟩
  · rw [tick_of_not_running c elapsed hrunning]
    exact ⟨h, .refl r⟩

/-- A run keeps to everything however long it goes on. -/
theorem Orderly.advance (elapsed n : Nat) : Advances c r (r.advance c elapsed n) := by
  induction n generalizing r with
  | zero => exact ⟨h, .refl r⟩
  | succ n ih =>
    rw [Run.advance]
    split
    · obtain ⟨h₁, hgrows₁⟩ := h.tick hc elapsed
      obtain ⟨h₂, hgrows₂⟩ := ih h₁
      exact ⟨h₂, hgrows₁.trans hgrows₂⟩
    · exact ⟨h, .refl r⟩

end

/-- A property of runs that is kept by what a tick is made of. -/
structure Maintained (c : Setting ω) (P : Run ω → Prop) : Prop where
  clock : ∀ {r : Run ω}, P r → ∀ turn phase, P { r with turn, phase }
  refresh : ∀ {r : Run ω}, r.Orderly c → P r →
    ∀ id, P (r.modifySolver id fun s => s.refresh c r.graph)
  serve : ∀ {r : Run ω}, r.Orderly c → P r → ∀ {id s}, r.solver? id = some s →
    ∀ queue, P (r.serveSolver c id queue)

theorem Maintained.tick {P : Run ω → Prop} (hP : Maintained c P) (ho : r.Orderly c) (h : P r)
    (elapsed : Nat) : P (r.tick c elapsed) := by
  by_cases hrunning : r.phase = .running
  · rcases tick_cases c elapsed hrunning with
      ⟨-, heq⟩ | ⟨-, -, heq⟩ | ⟨s, -, r₁, hr₁, hs, hend⟩
    · rw [heq, Run.endRound]
      split
      · exact hP.clock h {} r.phase
      · exact hP.clock h r.turn .converged
    · rw [heq]
      exact hP.clock h _ r.phase
    have h₁ : P r₁ := hr₁ ▸ hP.refresh ho h ⟨r.turn.solver⟩
    have ho₁ : r₁.Orderly c := hr₁ ▸ (ho.refreshSolver hrunning).orderly
    rcases hend with ⟨-, heq⟩ | ⟨-, heq⟩ | ⟨queue, -, heq⟩
    · exact heq ▸ hP.clock h₁ _ r₁.phase
    · exact heq ▸ hP.clock h₁ r₁.turn .timedOut
    · exact heq ▸ hP.serve ho₁.countStep.orderly (hP.clock h₁ _ r₁.phase) hs queue
  · rw [tick_of_not_running c elapsed hrunning]
    exact h

/-- What a tick is made of keeps is kept however long a run goes on. -/
theorem Maintained.advance {P : Run ω → Prop} (hP : Maintained c P) (hc : c.weighing.ZeroFree)
    (ho : r.Orderly c) (h : P r) (elapsed n : Nat) : P (r.advance c elapsed n) := by
  induction n generalizing r with
  | zero => exact h
  | succ n ih =>
    rw [Run.advance]
    split
    · exact ih (ho.tick hc elapsed).orderly (hP.tick ho h elapsed)
    · exact h

section

variable (c : Setting ω) (graph : CallGraph)

/-- The solver of the query is the first one. -/
theorem proceeds_withSolver (q : Query) :
    Proceeds c Nothing { graph } (({ graph } : Run ω).withSolver q).1 ∧
      (({ graph } : Run ω).withSolver q).1.ids[q]? = some ⟨0⟩ ∧
      (({ graph } : Run ω).withSolver q).2 = ⟨0⟩ := by
  obtain ⟨hp, hid⟩ := (kept_empty c graph).withSolver q
  have hfirst : (({ graph } : Run ω).withSolver q).2 = ⟨0⟩ := by rw [withSolver_empty]
  exact ⟨hp, hfirst ▸ hid, hfirst⟩

theorem orderly_beginBackward (q : BackwardQuery) :
    (Session.beginBackward { setting := c, graph } q).Orderly c ∧
      (Session.beginBackward { setting := c, graph } q).ids[Query.backward q]? = some ⟨0⟩ := by
  obtain ⟨hp, hid, hfirst⟩ := proceeds_withSolver c graph (.backward q)
  simp only [Session.beginBackward]
  split
  · have hp' := (hp.kept.subscribe .aliases trivial
      (({ graph } : Run ω).withSolver (.backward q)).2).1
    exact ⟨orderly_of_proceeds (hp.trans hp'), hp'.grows.ids hid⟩
  · exact ⟨orderly_of_proceeds hp, hid⟩

theorem orderly_beginForward (q : ForwardQuery) :
    (Session.beginForward { setting := c, graph } q).Orderly c ∧
      (Session.beginForward { setting := c, graph } q).ids[Query.forward q]? = some ⟨0⟩ := by
  obtain ⟨hp, hid, -⟩ := proceeds_withSolver c graph (.forward q)
  exact ⟨orderly_of_proceeds hp, hid⟩

end

theorem Reachable.orderly (hc : c.weighing.ZeroFree) (h : Reachable c r) : r.Orderly c := by
  induction h with
  | backward graph q => exact (orderly_beginBackward c graph q).1
  | forward graph q => exact (orderly_beginForward c graph q).1
  | tick elapsed _ ih => exact (ih.tick hc elapsed).orderly

theorem Reachable.complete (hc : c.weighing.ZeroFree) (h : Reachable c r)
    (hconverged : r.phase = .converged) : r.Complete c :=
  ⟨(h.orderly hc).toKept, (h.orderly hc).converged hconverged⟩

end DemandAlias.Run
