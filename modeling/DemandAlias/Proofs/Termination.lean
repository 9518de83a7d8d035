import DemandAlias.Proofs.Run.Listing
import DemandAlias.Proofs.Termination.Finiteness

/-!
# Termination

Without a limit on steps or time, the run for any query comes to its end
(`Session.Ends`, `Session.ends_of_unlimited`): nothing is left to do, or a node is reached
in a method said to be unreachable. This holds for recursive methods, for objects that hold
each other and for loops, for calls resolved beforehand and on the fly, whether only
reachability is asked for or trails are kept, and whatever queries were answered before.

A tick that makes a step lets the tally drop, where facts that are found count against the
number of facts there can be; a tick that makes none ends a turn, or a round after which
there is one more only if a step was made (`Run.Closer`, `Run.Tracked.tick`).
-/

namespace DemandAlias

namespace Run

variable {ω : Type} [Weight ω] [DecidableEq ω]

/-! ### What is counted -/

theorem Booked.updates {A : Change ω → Prop} {r r' : Run ω} (h : r.Booked) (hu : Updates A r r') :
    r'.Booked := by
  induction hu with
  | refl => exact h
  | change _ _ _ ih => exact ⟨ih.stores, ih.counted⟩
  | create _ _ ih => exact ⟨ih.stores, ih.counted⟩
  | register _ _ hstores _ _ ih =>
    refine ⟨fun {y} hy => ?_, ih.counted⟩
    rcases Std.HashSet.mem_insert.1 hy with heq | hy
    · exact eq_of_beq heq ▸ hstores
    · exact ih.stores hy
  | addEdge _ _ ih => exact ⟨ih.stores, ih.counted.addEdge _ _⟩
  | note _ _ _ _ _ _ ih => exact ⟨ih.stores, ih.counted⟩

variable {p : Program} {V : Vocabulary p} {g : CallGraph} {P : ω → Prop} {rank : ω → Nat}
  {c : Setting ω} {r : Run ω}

omit [DecidableEq ω] in
/-- What a rule of the vocabulary makes of a transition weighs as moves of the vocabulary do. -/
theorem weighs_callRuleChanges (hP : c.weighing.Settles V.HasNode P rank) {N : Naming} {q : Query}
    {rule : CallRule ω} (hrule : V.HasCallRule N q rule)
    (hpop : ∀ {target w}, rule = .popMatch target w → P w) (bottom : State) (t : CallTransition)
    {w : ω} (hw : P w) : ∀ x ∈ rule.changes c bottom t w, x.Weighs P := by
  intro x hx
  cases CallRule.yields_of_mem hx with
  | reach | unwind => trivial
  | step source => exact hP.extend hw (hP.step source hrule)
  | enter source => exact hP.enter source hrule.1
  | frame | unwound => exact hw
  | leave source target | pop source target => exact hP.extend hw (hP.leave source hrule.1)
  | popMatch => exact hP.extend hw (hpop rfl)
  | request =>
    -- A request only makes other requests and sends messages.
    exact (CallRequest.mild_changes c.program bottom _ t x hx).2.weighs

/-! ### What a run keeps to -/

/-- The run speaks of the vocabulary only, its weights are among those that settle, and what
    it has found is counted. -/
structure Tracked (V : Vocabulary p) (g : CallGraph) (P : ω → Prop) (r : Run ω) : Prop where
  within : r.Within (V.bound g)
  weighed : r.Weighed P
  booked : r.Booked

omit [Weight ω] [DecidableEq ω] in
theorem Tracked.clock (h : r.Tracked V g P) {turn : Turn} {phase : Phase} :
    Tracked V g P { r with turn, phase } :=
  ⟨h.within.clock, h.weighed, h.booked.stores, h.booked.counted⟩

variable [ZeroFree ω]

section

variable (hP : c.weighing.Settles V.HasNode P rank)
  (hp : p.Spans c.program) (ho : r.Kept c Nothing)
  (h : r.Tracked V g P) {id : SolverId}
include hP hp ho h

/-- Catching up with the call graph keeps the tally or makes it drop. -/
theorem Tracked.refreshSolver {r₁ : Run ω}
    (hr₁ : r₁ = r.modifySolver id fun s => s.refresh c r.graph) : r₁.Tracked V g P ∧
    (r₁.tally rank = r.tally rank ∨ (r.tally rank).Drops (r₁.tally rank)) := by
  obtain ⟨hweighed, htally⟩ := h.weighed.refreshSolver hP.toSettles hr₁
  have hwithin := h.within.refreshSolver (Vocabulary.closed_bound hp g) ho.toCore id
  refine ⟨⟨hr₁ ▸ hwithin, hweighed, ?_⟩, htally⟩
  rw [hr₁]
  exact ⟨h.booked.stores, h.booked.counted⟩

/-- Serving a queue in which something waits makes the tally drop. -/
theorem Tracked.serveSolver (hc : c.weighing.ZeroFree) {s : Solver ω} (hs : r.solver? id = some s)
    {queue : WorkQueue} (hwork : s.hasWork queue = true) :
    (r.serveSolver c id queue).Tracked V g P ∧
    (r.tally rank).Drops ((r.serveSolver c id queue).tally rank) := by
  obtain ⟨q, hq⟩ := h.within.named hs
  have hrule : ∀ d calls, s.calls.poll? = some (d, calls) →
      ∀ x ∈ d.listener.changes c s.bottom d.transition d.weight, x.Weighs P := by
    -- The rule that is told of a transition is one of the vocabulary.
    intro d calls hpoll
    have hconsistent := (ho.kept hs).sound.calls
    obtain ⟨hmem, -, topic, -, hlistens⟩ := delivered_of_poll? hconsistent hpoll
    obtain ⟨-, -, -, hweight⟩ := poll?_eq_some hpoll
    refine weighs_callRuleChanges hP ((h.within.solver hq hs).callRule hlistens).2
      (fun hrule => (h.weighed hs).popMatch (hrule ▸ hlistens)) _ _ ?_
    rw [hweight]
    exact (h.weighed hs).weight hconsistent hmem
  obtain ⟨hweighed, hdrops⟩ := h.weighed.drops_serveSolver hP.toSettles hc ho hs hrule hwork
  refine ⟨⟨?_, hweighed, ?_⟩, hdrops⟩
  · exact h.within.serveSolver hc ho hs (Vocabulary.closed_bound hp g) queue
  · have htake : (r.takeOut c id queue).Booked := ⟨h.booked.stores, h.booked.counted⟩
    exact htake.updates (updates_serveSolver (k := 0) hc ho hs fun _ _ => Nat.zero_le _)

end

/-! ### Ticks -/

/-- The run `r'` is closer to its end than `r`: its tally has dropped, with no more than `B` facts
    found, or it is the same, and a round has ended in which a step was made, or else a turn has. -/
def Closer (B : Nat) (rank : ω → Nat) (r' r : Run ω) : Prop :=
  (r.tally rank).Drops (r'.tally rank) ∧ (r'.tally rank).facts ≤ B ∨
    r'.tally rank = r.tally rank ∧ (r.turn.progressed = true ∧ r'.turn.progressed = false ∨
      r'.turn.progressed = r.turn.progressed ∧
        r'.solvers.size - r'.turn.solver < r.solvers.size - r.turn.solver)

/-- What gets less as a run comes closer to its end, in the order in which it counts. -/
def ranks (B : Nat) (rank : ω → Nat) (r : Run ω) : Nat × Nat × Nat × Nat × Nat × Nat × Nat × Nat :=
  (B - (r.tally rank).facts, (r.tally rank).load, (r.tally rank).pending, (r.tally rank).stale,
    (r.tally rank).heavy, (r.tally rank).events, r.turn.progressed.toNat,
    r.solvers.size - r.turn.solver)

omit [DecidableEq ω] [ZeroFree ω] in
/-- A run cannot come closer to its end forever. -/
theorem wellFounded_closer (B : Nat) (rank : ω → Nat) :
    WellFounded (Closer B rank : Run ω → Run ω → Prop) := by
  refine Subrelation.wf (r := InvImage WellFoundedRelation.rel (ranks B rank)) (fun {r' r} h => ?_)
    (InvImage.wf _ WellFoundedRelation.wf)
  simp only [InvImage, WellFoundedRelation.rel, ranks, Prod.lex_def, sizeOf_nat]
  rcases h with ⟨hdrops, hle⟩ | ⟨htally, ⟨hone, hzero⟩ | ⟨hsame, hturn⟩⟩
  · unfold Tally.Drops Tally.Gains Tally.DropsAt at hdrops
    omega
  · simp [htally, hone, hzero]
  · simp [htally, hsame, hturn]

end Run

/-- Nothing is left to do, or a node was reached in a method said to be unreachable. -/
def Phase.IsFinal (phase : Phase) : Prop := phase = .converged ∨ ∃ n, phase = .unsound n

namespace Run

variable {ω : Type} [Weight ω] [DecidableEq ω] [ZeroFree ω] {p : Program} {V : Vocabulary p}
  {g : CallGraph} {P : ω → Prop} {rank : ω → Nat} {c : Setting ω} {r : Run ω} {elapsed : Nat}

/-- A tick ends a run that is not limited, or brings it closer to its end. -/
theorem Tracked.tick (hP : c.weighing.Settles V.HasNode P rank) (hc : c.weighing.ZeroFree)
    (hp : p.Spans c.program) {B : Nat}
    (hlimit : ∀ steps, c.options.isExhausted batch steps elapsed = false)
    (hB : ∀ {r : Run ω}, r.Kept c Nothing → r.Tracked V g P → (r.tally rank).facts ≤ B)
    (ho : r.Orderly c) (h : r.Tracked V g P) (hrunning : r.phase = .running) :
    (r.tick c elapsed).Tracked V g P ∧ ((r.tick c elapsed).phase.IsFinal ∨
      (r.tick c elapsed).phase = .running ∧ Closer B rank (r.tick c elapsed) r) := by
  have hkept := (ho.tick hc elapsed).orderly.toKept
  rcases tick_cases c elapsed hrunning with
    ⟨hall, heq⟩ | ⟨hlt, hmade, heq⟩ | ⟨s, hlt, r₁, hr₁, hs, hend⟩
  · -- A round ends.
    rw [heq, Run.endRound]
    split
    · next hprogressed => exact ⟨h.clock, .inr ⟨hrunning, .inr ⟨rfl, .inl ⟨hprogressed, rfl⟩⟩⟩⟩
    · exact ⟨h.clock, .inl (.inl rfl)⟩
  · -- A turn ends.
    rw [heq]
    refine ⟨h.clock, .inr ⟨hrunning, .inr ⟨rfl, .inr ⟨rfl, ?_⟩⟩⟩⟩
    simp only [Run.endTurn]
    omega
  obtain ⟨h₁, htally⟩ := h.refreshSolver hP hp ho.toKept hr₁
  have ho₁ : r₁.Orderly c := hr₁ ▸ (ho.refreshSolver hrunning).orderly
  have hturn : r₁.turn = r.turn := by rw [hr₁]; rfl
  have hrunning₁ : r₁.phase = .running := by rw [hr₁]; exact hrunning
  rcases hend with ⟨-, heq⟩ | ⟨hexhausted, -⟩ | ⟨queue, hwork, heq⟩
  · -- There is nothing to do but to catch up with the call graph.
    have h₂ : r₁.endTurn.Tracked V g P := h₁.clock
    rw [heq] at hkept ⊢
    refine ⟨h₂, .inr ⟨hrunning₁, htally.symm.imp (fun hdrops => ⟨hdrops, hB hkept h₂⟩) fun hsame =>
      ⟨hsame, .inr ⟨by simp only [Run.endTurn, hturn], ?_⟩⟩⟩⟩
    have hsize : r₁.solvers.size = r.solvers.size := by rw [hr₁, size_modifySolver]
    simp only [Run.endTurn, hturn, hsize]
    omega
  · rw [hlimit] at hexhausted
    cases hexhausted
  · -- A step is made.
    have ho₂ := ho₁.countStep.orderly.toKept
    have hcount : r₁.countStep.Tracked V g P := h₁.clock
    obtain ⟨h₂, hdrops⟩ := hcount.serveSolver hP hp ho₂ hc hs hwork
    have hclock := (ho₂.serveSolver hc hs queue).clock
    rw [← heq] at h₂ hdrops hclock
    refine ⟨h₂, hclock.phase.symm.imp (fun hfailed => .inr hfailed) fun hphase => ?_⟩
    refine ⟨hphase.trans hrunning₁, .inl ⟨?_, hB hkept h₂⟩⟩
    rcases htally with hsame | hdrops₁
    · exact hsame ▸ hdrops
    · exact hdrops₁.trans hdrops

/-! ### Runs -/

omit [ZeroFree ω] in
theorem advance_of_final (c : Setting ω) (elapsed : Nat) (h : r.phase.IsFinal) (n : Nat) :
    r.advance c elapsed n = r := by
  have hstopped : r.isRunning = false := by
    rcases h with h | ⟨node, h⟩ <;> simp [isRunning, h]
  cases n with
  | zero => rfl
  | succ => simp [Run.advance, hstopped]

section

variable (hP : c.weighing.Settles V.HasNode P rank) (hc : c.weighing.ZeroFree)
  (hp : p.Spans c.program)
  (hlimit : ∀ steps, c.options.isExhausted batch steps elapsed = false) (ho : r.Orderly c)
  (h : r.Tracked V g P)
include hP hc hp hlimit ho h

/-- A run that is not limited comes to its end. -/
theorem Tracked.exists_final (hphase : r.phase = .running ∨ r.phase.IsFinal) :
    ∃ n, ∀ m, n ≤ m → (r.advance c elapsed m).phase.IsFinal := by
  obtain ⟨B, hB⟩ := V.exists_facts_le g c rank
  have hstop : ∀ {r : Run ω}, r.phase.IsFinal →
      ∃ n, ∀ m, n ≤ m → (r.advance c elapsed m).phase.IsFinal :=
    fun hfinal => ⟨0, fun m _ => by rwa [advance_of_final c elapsed hfinal]⟩
  induction r using (wellFounded_closer B rank).induction with
  | _ r ih =>
    rcases hphase with hrunning | hfinal
    swap
    · exact hstop hfinal
    -- After one tick, the run is at its end or closer to it.
    obtain ⟨h₁, hend⟩ := h.tick hP hc hp hlimit
      (fun hkept h => hB hkept h.within h.booked) ho hrunning
    obtain ⟨n, hn⟩ := hend.elim hstop fun hcloser =>
      ih _ hcloser.2 (ho.tick hc elapsed).orderly h₁ (.inl hcloser.1)
    refine ⟨n + 1, fun m hm => ?_⟩
    obtain ⟨m, rfl⟩ := Nat.exists_eq_add_of_lt hm
    have hadvance : r.advance c elapsed (n + m + 1) = (r.tick c elapsed).advance c elapsed (n + m) := by
      simp [Run.advance, isRunning, hrunning]
    rw [hadvance]
    exact hn _ (Nat.le_add_right n m)

/-- However long it goes on, a run that is not limited keeps to what is counted. -/
theorem Tracked.advance (n : Nat) : (r.advance c elapsed n).Tracked V g P := by
  obtain ⟨B, hB⟩ := V.exists_facts_le g c rank
  induction n generalizing r with
  | zero => exact h
  | succ n ih =>
    rw [Run.advance]
    split
    · next hgo =>
      have hrunning : r.phase = .running := by simpa [isRunning] using hgo
      obtain ⟨h₁, -⟩ := h.tick hP hc hp hlimit
        (fun hkept h => hB hkept h.within h.booked) ho hrunning
      exact ih (ho.tick hc elapsed).orderly h₁
    · exact h

end

end Run

/-! ### Sessions -/

namespace Session

open Run

variable {ω : Type} [Weight ω] [DecidableEq ω]
variable {q : Query} {session : Session ω}

/-- The run for the query comes to its end, whatever the clock says. -/
def Ends (session : Session ω) (q : Query) : Prop :=
  ∀ elapsed, ∃ n, ∀ m, n ≤ m → ((session.begin q).advance session.setting elapsed m).phase.IsFinal

/-- The session after a query is answered. -/
def answer (session : Session ω) : Query → Session ω
  | .forward q => (session.solveForward q).2
  | .backward q => (session.solveBackward q).2

theorem answer_eq (session : Session ω) (q : Query) :
    session.answer q = session.keep ((session.begin q).finish session.setting) := by
  cases q <;> rfl

variable [ZeroFree ω] {p : Program}

theorem clock_begin (session : Session ω) (q : Query) :
    SameClock { graph := session.graph } (session.begin q) := by
  obtain ⟨hp, -⟩ := proceeds_withSolver session.setting session.graph q
  cases q with
  | forward => exact hp.clock
  | backward =>
    simp only [Session.begin, beginBackward]
    split
    · exact hp.clock.trans (hp.kept.subscribe .aliases trivial _).1.clock
    · exact hp.clock

theorem tracked_begin {V : Vocabulary p} {P : ω → Prop} {rank : ω → Nat}
    (hP : DemandAlias.Settles P rank) (hp : p.Spans session.setting.program)
    (hgraph : p.Builds session.graph) (hq : V.HasNode q.node) :
    (session.begin q).Tracked V session.graph P := by
  have hempty : ({ graph := session.graph } : Run ω).Weighed P := fun id s hs => by
    simp [solver?] at hs
  have hbooked : ({ graph := session.graph } : Run ω).Booked :=
    ⟨fun hx => absurd hx Std.HashSet.not_mem_empty, hgraph.counted⟩
  have hupdates := (passage_updates (A := fun _ => False)).start session q
  refine ⟨?_, (hempty.updates (k := 0) hP (fun x hx => hx.elim) hupdates).1, hbooked.updates hupdates⟩
  exact within_begin session (Vocabulary.closed_bound hp session.graph).toPassing rfl
    (fun he => hgraph.edges he) hq fun _ _ _ => trivial

/-- The run for a query of a session that is not limited keeps to what is counted. -/
theorem exists_tracked (hp : p.Spans session.setting.program)
    (hsettles : ∀ {H : Node → Prop}, {n | H n}.Finite →
      ∃ P rank, session.setting.weighing.Settles H P rank) (hgraph : p.Builds session.graph)
    (hq : q.node.stmt ∈ p.statements) :
    ∃ V : Vocabulary p, ∃ P rank, session.setting.weighing.Settles V.HasNode P rank ∧
      (session.begin q).Tracked V session.graph P := by
  -- The vocabulary of the query is finite, so the weights settle.
  have hnode : (Vocabulary.asking p q.node.var).HasNode q.node := ⟨hq, mem_cons_self⟩
  obtain ⟨P, rank, hP⟩ := hsettles (Vocabulary.asking p q.node.var).finite_nodes
  exact ⟨_, P, rank, hP, tracked_begin hP.toSettles hp hgraph hnode⟩

theorem isExhausted_eq_false {options : Options} (hsteps : options.maxSteps = none)
    (htime : options.timeout = none) (elapsed steps : Nat) :
    options.isExhausted batch steps elapsed = false := by
  simp [Options.isExhausted, hsteps, htime]

section

variable (hp : p.Spans session.setting.program) (hc : session.setting.weighing.ZeroFree)
  (hsettles : ∀ {H : Node → Prop}, {n | H n}.Finite →
    ∃ P rank, session.setting.weighing.Settles H P rank)
  (hsteps : session.setting.options.maxSteps = none)
  (htime : session.setting.options.timeout = none) (hgraph : p.Builds session.graph)
  (hq : q.node.stmt ∈ p.statements)
include hp hc hsettles hsteps htime hgraph hq

/-- However long it goes on, the run has a call graph of the program. -/
theorem builds_advance (elapsed n : Nat) :
    p.Builds ((session.begin q).advance session.setting elapsed n).graph := by
  obtain ⟨V, P, rank, hP, h⟩ := exists_tracked hp hsettles hgraph hq
  have hend := h.advance hP hc hp (isExhausted_eq_false hsteps htime elapsed)
    (orderly_begin session q).1 n
  exact ⟨hend.booked.counted, hend.within.edge⟩

/-- A query of a session that is not limited is answered after finitely many ticks, and
    leaves a call graph of the program. -/
theorem ends_of_builds : session.Ends q ∧ p.Builds (session.answer q).graph := by
  refine ⟨fun elapsed => ?_, ?_⟩
  · obtain ⟨V, P, rank, hP, h⟩ := exists_tracked hp hsettles hgraph hq
    exact h.exists_final hP hc hp (isExhausted_eq_false hsteps htime elapsed)
      (orderly_begin session q).1 ((clock_begin session q).phase.imp_right .inr)
  · rw [answer_eq]
    exact builds_advance hp hc hsettles hsteps htime hgraph hq 0 ample

end

omit [Weight ω] [DecidableEq ω] [ZeroFree ω] in
/-- A session begins with a call graph of its program. -/
theorem builds_start {c : Setting ω} (hp : p.Spans c.program) : p.Builds (start c).graph := by
  simp only [start]
  split
  · exact .empty p
  · exact (Program.Builds.classHierarchy c.program).mono hp

theorem ends_of_start {c : Setting ω} (hp : p.Spans c.program) (hc : c.weighing.ZeroFree)
    (hsettles : ∀ {H : Node → Prop}, {n | H n}.Finite → ∃ P rank, c.weighing.Settles H P rank)
    (hsteps : c.options.maxSteps = none) (htime : c.options.timeout = none) {earlier : List Query}
    (hearlier : ∀ q ∈ earlier, q.node.stmt ∈ p.statements) (hq : q.node.stmt ∈ p.statements) :
    (earlier.foldl answer (start c)).Ends q := by
  have hsession : (earlier.foldl answer (start c)).setting = c ∧
      p.Builds (earlier.foldl answer (start c)).graph := by
    refine List.foldlRecOn (motive := fun session => session.setting = c ∧ p.Builds session.graph)
      earlier answer ⟨rfl, builds_start hp⟩ fun session h q hmem => ?_
    obtain ⟨rfl, hgraph⟩ := h
    refine ⟨by rw [answer_eq, keep], ?_⟩
    exact (ends_of_builds hp hc hsettles hsteps htime hgraph (hearlier q hmem)).2
  obtain ⟨hsetting, hgraph⟩ := hsession
  rw [← hsetting] at hp hc hsettles hsteps htime
  exact (ends_of_builds hp hc hsettles hsteps htime hgraph hq).1

end Session

/-- In a session about a program that is described, without a limit on steps or time, the
    run for any query at a statement of the program comes to its end, whatever the scope,
    the way calls are resolved, the queries answered before and the weights. -/
theorem Session.ends_of_unlimited {d : Description} {p : Program} (hp : d.resolve = .ok p)
    (scope : Scope) (options : Options) (hsteps : options.maxSteps = none)
    (htime : options.timeout = none) (earlier : List Query)
    (hearlier : ∀ q ∈ earlier, q.node.stmt ∈ p.statements) {q : Query}
    (hq : q.node.stmt ∈ p.statements) :
    (earlier.foldl answer (start ⟨p, scope, .reach, options⟩)).Ends q ∧
      (earlier.foldl answer (start ⟨p, scope, .trail, options⟩)).Ends q := by
  have hlaid := isLaidOut_of_resolve hp
  constructor
  · exact ends_of_start hlaid.spans zeroFree_reach
      (fun _ => ⟨_, _, Weighing.settles_reach _⟩) hsteps htime hearlier hq
  · exact ends_of_start hlaid.spans zeroFree_trail
      (fun hfinite => ⟨_, _, Weighing.settles_trail hfinite⟩) hsteps htime hearlier hq

namespace Circling

/-- A method that calls itself in a loop, with an object that holds itself. -/
def description : Description where
  methods := [{
    name := "Main.main"
    params := ["p"]
    body := [.new "x" "X", .store "x" "f" "x", .load "y" "x" "f",
      .call (some "z") "Main.main" [.var "y"], .store "p" "f" "z", .jump 2] }]

def var (name : String) : Local := ⟨⟨"Main.main"⟩, name⟩

def actions : List Action :=
  [.assign (var "x") (.alloc ⟨"X"⟩), .store (var "x") (.named "f") (var "x"),
    .assign (var "y") (.load (var "x") (.named "f")),
    .assign (var "z") (.call ⟨.static ⟨"Main.main"⟩, [.var (var "y")]⟩),
    .store (var "p") (.named "f") (var "z"), .jump 2]

/-- The statement at a place. -/
def stmt (index : Nat) : Statement := ⟨⟨"Main.main"⟩, index, actions[index]?.getD .nop⟩

def program : Program where
  classes := []
  methods := [.ofActions ⟨"Main.main"⟩ none [var "p"] actions]
  unreachable := []

theorem resolve_description : description.resolve = .ok program := Description.resolve_method rfl

end Circling

/-- Calls are resolved on the fly, and the trails of an object that holds itself are kept,
    after it was asked what a call returns. -/
theorem Session.ends_circling : Circling.description.resolve = .ok Circling.program ∧
    (Session.answer (.start ⟨Circling.program, .everything, .trail,
      { timeout := none, onTheFly := true }⟩)
        (.backward ⟨⟨Circling.stmt 4, Circling.var "z"⟩⟩)).Ends
          (.forward ⟨⟨Circling.stmt 0, Circling.var "x"⟩, rfl⟩) := by
  refine ⟨Circling.resolve_description, ?_⟩
  exact (Session.ends_of_unlimited Circling.resolve_description .everything
    { timeout := none, onTheFly := true } rfl rfl
    [.backward ⟨⟨Circling.stmt 4, Circling.var "z"⟩⟩] (by decide +kernel) (by decide +kernel)).2

end DemandAlias
