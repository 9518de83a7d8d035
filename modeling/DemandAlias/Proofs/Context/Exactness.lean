import DemandAlias.Proofs.Context.Stacks
import DemandAlias.Proofs.Run.Persistence
import DemandAlias.Proofs.Solver.Answer

/-!
# Context sensitivity is exact

In a program that does not access fields, a forward query reports exactly the nodes that
the pushdown system of `DemandAlias.Proofs.Context.Pushdown` comes to with some stack of
calls (`mem_nodes_iff_steps`): the frame of a method is one state for all of its callers,
but nothing that goes into the frame from one caller comes out of it to another.

* `exists_steps_of_accepts`: what the automaton of calls accepts is come to;
* `Found.step`: what is come to is accepted, once the solver has finished.
-/

namespace DemandAlias.Pushdown

open Solver

variable {q : ForwardQuery}

variable {ω : Type} {p : Program} {g : CallGraph} {seed : Node} {s : Solver ω} {c : Setting ω}
  {r : Run ω}

/-! ### What is accepted is come to -/

/-- If the bottom can be reached from the state of a transition, then the node is come to
    with some stack. -/
theorem exists_steps_of_accepts (hwithin : s.Within (stacked p g seed))
    (hfinal : ∀ q, q ∈ s.calls.final → q = .bottom seed) {q : State} (hq : s.calls.Accepts q)
    {n : Node} (hn : Stands p g seed n q) : ∃ stack, Steps p g seed ⟨seed, []⟩ ⟨n, stack⟩ := by
  induction hq generalizing n with
  | final hq =>
    obtain rfl := hfinal _ hq
    rcases hn with ⟨-, hsteps⟩ | ⟨e, heq, -⟩
    · exact ⟨[], hsteps⟩
    · exact absurd heq.symm (frameOf_ne_bottom e seed)
  | @step t ht _ ih =>
    rcases hn with ⟨-, hsteps⟩ | ⟨e, heq, hsteps⟩
    · exact ⟨[], hsteps⟩
    · -- The frame was pushed by a call, and where the call was made is come to.
      obtain ⟨source, site, q'⟩ := t
      obtain rfl : source = frameOf e := heq
      obtain ⟨m, hm, hpush⟩ := entered_of_call (hwithin.call ht)
      obtain ⟨stack, hstack⟩ := ih hm
      exact ⟨site :: stack, (hstack.tail (.enter hpush)).trans (hsteps (site :: stack))⟩

/-! ### What is come to is accepted -/

/-- The stack is spelled by transitions from the state to the bottom. -/
inductive Spells (s : Solver ω) : State → List Statement → Prop
  | nil : Spells s s.bottom []
  | cons {q q' : State} {site : Statement} {stack : List Statement}
      (ht : ⟨q, site, q'⟩ ∈ s.calls.transitions) (h : Spells s q' stack) :
    Spells s q (site :: stack)

theorem Spells.accepts (hfinal : s.bottom ∈ s.calls.final) {q : State} {stack : List Statement}
    (h : Spells s q stack) : s.calls.Accepts q := by
  induction h with
  | nil => exact .final hfinal
  | cons ht _ ih => exact .step ht ih

theorem successor_of_leads (hdirection : s.direction = .forward) (hscope : c.scope = .everything)
    {n : Node} {m : Move} (h : Leads c.program g s.seed n m) : Successor c g s n m := by
  have hflow : s.flowAt c.program n = Flow.Forward.flow c.program s.seed n := by
    simp [flowAt, hdirection]
  have hincluded : ∀ name, c.scope.excludes name = false := fun name => by rw [hscope]; rfl
  cases h with
  | within hm => exact .within (hflow ▸ hm)
  | enter hsite hcallee hdefined =>
    exact .enter (hflow ▸ hsite) hcallee hdefined (hincluded _) (by simpa [intoCallee, hdirection])
  | leave hname hsite hdefined =>
    exact .leave (hflow ▸ hname) hsite hdefined (hincluded _) (by simpa [toCaller, hdirection])

/-- Nothing leaves the bottom. -/
theorem bottom_not_source (hwithin : s.Within (stacked p g s.seed)) {site : Statement} {q : State} :
    ⟨s.bottom, site, q⟩ ∉ s.calls.transitions := by
  intro ht
  rcases hwithin.call ht with ⟨_, _, heq, -⟩ | ⟨_, _, _, heq, -⟩ <;> cases heq

/-- The solver has the node with a state that spells the stack, and holds the object itself
    there. -/
def Found (s : Solver ω) (x : Configuration) : Prop :=
  ∃ q, callAt x.node q ∈ s.calls.transitions ∧ Spells s q x.stack ∧
    fieldAt x.node .epsilon s.bottom ∈ s.fields.transitions

/-- A step from what is found leads to what is found. -/
theorem Found.step [Weight ω] {sent : Message → Prop} (hfinished : Run.Finished c g sent s)
    (hdirection : s.direction = .forward) (hscope : c.scope = .everything) {g' : CallGraph}
    (hwithin : s.Within (stacked c.program g' s.seed)) {x y : Configuration} (h : Found s x)
    (hstep : Step c.program g s.seed x y) : Found s y := by
  obtain ⟨q, hq, hspells, hfield⟩ := h
  have hreached : x.node ∈ s.reached := (hfinished.reached_iff _).2 ⟨⟨q, hq⟩, _, _, hfield⟩
  have hfollows : ∀ {m}, Leads c.program g s.seed x.node m → s.FollowsMove x.node m := fun hm =>
    hfinished.followsMove_of_successor hreached (by rw [hscope]; rfl)
      (successor_of_leads hdirection hscope hm)
  cases hstep with
  | within hm =>
    obtain ⟨hcalls, hfields⟩ := hfollows hm
    exact ⟨q, hcalls q hq, hspells, hfields _ _ hfield⟩
  | enter hm =>
    obtain ⟨hcalls, hfields⟩ := hfollows hm
    exact ⟨_, (hcalls q hq).1, .cons (hcalls q hq).2 hspells, hfields _ _ hfield⟩
  | leave hm =>
    obtain ⟨hcalls, hfields⟩ := hfollows hm
    have hpop := hcalls q hq
    cases hspells with
    | cons ht hrest =>
      rw [if_neg fun (hbottom : q = s.bottom) => bottom_not_source hwithin (hbottom ▸ ht)] at hpop
      exact ⟨_, hpop _ ht, hrest, hfields _ _ hfield⟩
  | leaveFirst hm =>
    obtain ⟨hcalls, hfields⟩ := hfollows hm
    have hpop := hcalls q hq
    cases hspells with
    | nil =>
      rw [if_pos rfl] at hpop
      exact ⟨_, hpop, .nil, hfields _ _ hfield⟩

/-! ### The answer -/

/-- The table has the nodes that hold the object itself, with their weights, but for those
    that are left out. -/
theorem mem_tableOf [Weight ω] [DecidableEq ω] (c : Setting ω) (s : Solver ω) (q : ForwardQuery)
    (n : Node) (w : ω) : (n, w) ∈ Run.tableOf c s q ↔ s.nodeWeights[n]? = some w ∧
      s.holdsDirectly n = true ∧ ¬(c.options.prune = true ∧ c.weighing.contradicts q w = true) := by
  simp only [Run.tableOf, mem_filter, sortedBy, mem_mergeSort,
    Std.HashMap.mem_toList_iff_getElem?_eq_some]
  cases c.options.prune <;> simp

/-- No node is left out. -/
def KeepsAll (c : Setting ω) (q : ForwardQuery) : Prop :=
  ∀ w, ¬(c.options.prune = true ∧ c.weighing.contradicts q w = true)

theorem mem_tableOf_of_kept [Weight ω] [DecidableEq ω] (hkept : KeepsAll c q) (s : Solver ω)
    (n : Node) : n ∈ (Run.tableOf c s q).map (·.1) ↔
      n ∈ s.nodeWeights ∧ s.holdsDirectly n = true := by
  simp only [mem_map, Prod.exists, exists_and_right, exists_eq_right, mem_tableOf, hkept _,
    not_false_eq_true, and_true, Std.HashMap.mem_iff_isSome_getElem?, isSome_iff_exists]

/-- Reachability knows of no tests. -/
theorem keepsAll_of_reach {c : Setting Reach} (hweighing : c.weighing = .reach)
    (q : ForwardQuery) : KeepsAll c q := by
  rw [KeepsAll, hweighing]
  exact fun w hw => Bool.noConfusion hw.2

theorem mem_tableOf_iff {c : Setting Reach} (hweighing : c.weighing = .reach) (s : Solver Reach)
    (q : ForwardQuery) (n : Node) : n ∈ (Run.tableOf c s q).map (·.1) ↔
      n ∈ s.nodeWeights ∧ s.holdsDirectly n = true :=
  mem_tableOf_of_kept (keepsAll_of_reach hweighing q) s n

/-- The query of a value is at a statement that does not access a field. -/
theorem accessesField_of_allocates {stmt : Statement} {var : Local}
    (h : stmt.allocates var = true) : stmt.accessesField = false := by
  unfold Statement.allocates at h
  unfold Statement.accessesField Statement.field? Action.field?
  split
  · next haction => simp [haction, Expr.creates] at h
  · next haction => simp [haction] at h
  · rfl

section Converged

/-- What the solver of a forward query is when its run has converged, if it keeps to itself. -/
theorem exists_solver_of_private [Weight ω] [DecidableEq ω] [ZeroFree ω] {P : Solver ω → Prop}
    (hprivate : Run.Private (stacked c.program (.classHierarchy c.program) q.node) c
      (.classHierarchy c.program) .forward q.node)
    (hzero : c.weighing.ZeroFree)
    (hP : Solver.Persists c (fun s => s.Sound ∧ s.direction = .forward ∧ s.seed = q.node ∧
      s.Within (stacked c.program (.classHierarchy c.program) q.node)) P)
    (hstart : P (.start ⟨0⟩ .forward q.node))
    (hr : r = ((Session.start c).beginForward q).finish c) (hconverged : r.phase = .converged) :
    ∃ s sent, r.solver? ⟨0⟩ = some s ∧ s.direction = .forward ∧ s.seed = q.node ∧
      Run.Finished c (.classHierarchy c.program) sent s ∧
      s.Within (stacked c.program (.classHierarchy c.program) q.node) ∧
      (∀ q', q' ∈ s.calls.final ↔ q' = .bottom q.node) ∧ Found s ⟨q.node, []⟩ ∧
      s.calls.hasEvents = false ∧ P s := by
  have hsession : Session.start c = ⟨c, .classHierarchy c.program⟩ := by
    simp [Session.start, hprivate.resolved]
  rw [hsession] at hr
  obtain ⟨ho, -⟩ := Run.orderly_beginForward c (.classHierarchy c.program) q
  -- At first there is one solver, which has nothing but its seed.
  have hlone : (Session.beginForward ⟨c, .classHierarchy c.program⟩ q).Lone
      (stacked c.program (.classHierarchy c.program) q.node) (.classHierarchy c.program)
      .forward q.node := by
    refine ⟨by rw [Session.beginForward, Run.withSolver_empty]; rfl, fun {id s} hs => ?_⟩
    rw [Run.solver?_beginForward] at hs
    split at hs
    · cases hs
      exact ⟨rfl, rfl, within_start _ _ (.inl ⟨q.node, _, rfl,
        accessesField_of_allocates q.allocates, .inl ⟨rfl, .refl⟩⟩) ⟨q.node, rfl⟩ (.inl rfl)
        (.inl rfl)⟩
    · cases hs
  have hfirst : (Session.beginForward ⟨c, .classHierarchy c.program⟩ q).Everywhere P := by
    intro id s hs
    rw [Run.solver?_beginForward] at hs
    split at hs
    · cases hs
      exact hstart
    · cases hs
  -- All of this is maintained until the run ends.
  obtain ⟨hor, hgrows⟩ := ho.advance hzero 0 Run.ample
  obtain ⟨hlone, heverywhere⟩ := (Run.maintained_lone_everywhere hprivate hzero hP).advance hzero ho
    ⟨hlone, hfirst⟩ 0 Run.ample
  obtain ⟨s, hs, hsolver⟩ := hgrows.solvers
    ((Run.solver?_beginForward ⟨c, .classHierarchy c.program⟩ q ⟨0⟩).trans (if_pos rfl))
  subst hr
  obtain ⟨hdirection, hseed, hwithin⟩ := hlone.solver hs
  have hidle : s.calls.hasEvents = false := by
    have hrests := (hor.finished hconverged hs).1
    simp only [Solver.isIdle, Solver.hasWork, and_eq_true, Bool.not_eq_eq_eq_not,
      Bool.not_true] at hrests
    exact hrests.1.1
  refine ⟨s, _, hs, hdirection, hseed, hlone.graph ▸ hor.converged hconverged hs, hwithin, ?_, ?_,
    hidle, heverywhere hs⟩
  · intro q'
    rw [hsolver.final]
    exact Automaton.mem_final_seeded ..
  · refine ⟨s.bottom, hsolver.calls ?_, .nil, hsolver.fields ?_⟩
    · rw [bottom, hseed]
      exact (mem_transitions_seeded ..).2 ⟨rfl, ZeroFree.one_ne_zero⟩
    · rw [bottom, hseed]
      exact (mem_transitions_seeded ..).2 ⟨rfl, ZeroFree.one_ne_zero⟩

variable {c : Setting Reach} (hp : c.program.IsLaidOut)
  (hstatements : ∀ s ∈ c.program.statements, s.accessesField = false)
  (hunreachable : c.program.unreachable = []) (hresolved : c.options.onTheFly = false)

include hp hstatements hunreachable hresolved

theorem private_stacked (g : CallGraph) (seed : Node) :
    Run.Private (stacked c.program g seed) c g .forward seed where
  closed _ hdirection hseed := hseed ▸ closed_stacked hp hstatements hdirection
  message hm := .inl (hm.resolve_right (by
    rintro ⟨n, -, hmethod⟩
    simp [Program.isUnreachable, hunreachable] at hmethod))
  resolved := hresolved

/-- What the solver of a forward query is when its run has converged. -/
theorem exists_solver_of_converged (hweighing : c.weighing = .reach) (q : ForwardQuery)
    {r : Run Reach} (hr : r = ((Session.start c).beginForward q).finish c)
    (hconverged : r.phase = .converged) :
    ∃ s sent, r.solver? ⟨0⟩ = some s ∧ s.direction = .forward ∧ s.seed = q.node ∧
      Run.Finished c (.classHierarchy c.program) sent s ∧
      s.Within (stacked c.program (.classHierarchy c.program) q.node) ∧
      (∀ q', q' ∈ s.calls.final ↔ q' = .bottom q.node) ∧ Found s ⟨q.node, []⟩ := by
  obtain ⟨s, sent, hs, hdirection, hseed, hfinished, hwithin, hfinal, hfound, -⟩ :=
    exists_solver_of_private (P := fun _ => True)
      (private_stacked hp hstatements hunreachable hresolved _ _)
      (hweighing ▸ zeroFree_reach) ⟨fun _ _ _ _ _ _ _ => trivial, fun _ _ => trivial,
        fun _ _ _ _ => trivial, fun _ _ => trivial⟩ trivial hr hconverged
  exact ⟨s, sent, hs, hdirection, hseed, hfinished, hwithin, hfinal, hfound⟩

end Converged

section

variable [Weight ω] [DecidableEq ω] {session : Session ω} {result : ForwardResult ω}
  (h : session.endForward q r = .ok result) (hconverged : result.timedOut = false)
include h hconverged

/-- The answer of a run that has converged is that of its solver. -/
theorem eq_forwardResult_of_endForward : r.phase = .converged ∧ ∀ s, r.solver? ⟨0⟩ = some s →
    result = r.forwardResult session.setting q s := by
  unfold Session.endForward at h
  split at h
  · cases h
  · cases h
    refine ⟨by simpa [Run.forwardResult, Run.isTimedOut] using hconverged, fun s hs => ?_⟩
    rw [hs]
    rfl

theorem nodes_of_endForward : r.phase = .converged ∧ ∀ s, r.solver? ⟨0⟩ = some s →
    result.nodes = (Run.tableOf session.setting s q).map (·.1) := by
  obtain ⟨hphase, hresult⟩ := eq_forwardResult_of_endForward h hconverged
  exact ⟨hphase, fun s hs => congrArg ForwardResult.nodes (hresult s hs)⟩

end

section Found

variable {s : Solver Reach} {c : Setting Reach}

/-- A solver that has finished has found all that the pushdown system comes to. -/
theorem Found.of_steps {sent : Message → Prop} (hfinished : Run.Finished c g sent s)
    (hdirection : s.direction = .forward) (hscope : c.scope = .everything) {g' : CallGraph}
    (hwithin : s.Within (stacked c.program g' s.seed)) {x y : Configuration} (h : Found s x)
    (hsteps : Steps c.program g s.seed x y) : Found s y := by
  induction hsteps with
  | refl => exact h
  | tail _ hstep ih => exact ih.step hfinished hdirection hscope hwithin hstep

/-- What a solver has found is reported. -/
theorem Found.mem_table {sent : Message → Prop} (hfinished : Run.Finished c g sent s)
    (hweighing : c.weighing = .reach) (hfinal : s.bottom ∈ s.calls.final) {x : Configuration}
    (h : Found s x) (q : ForwardQuery) : x.node ∈ (Run.tableOf c s q).map (·.1) := by
  obtain ⟨q', hq', hspells, hfield⟩ := h
  rw [mem_tableOf_iff hweighing, mem_nodeWeights_iff hfinished.sound.calls,
    holdsDirectly_iff hfinished.sound.fields]
  exact ⟨⟨(hfinished.reached_iff _).2 ⟨⟨q', hq'⟩, _, _, hfield⟩, q', hq', hspells.accepts hfinal⟩,
    _, hfield⟩

end Found

/-- A forward query in a program that does not access fields reports exactly the nodes that
    the pushdown system comes to. -/
theorem mem_nodes_iff_steps {d : Description} {p : Program} (hp : d.resolve = .ok p)
    (hfields : ∀ s ∈ p.statements, s.accessesField = false) (hunreachable : p.unreachable = [])
    (options : Options) (hresolved : options.onTheFly = false) (q : ForwardQuery)
    {result : ForwardResult Reach}
    (hresult : (Session.solveForward (.start ⟨p, .everything, .reach, options⟩) q).1 = .ok result)
    (hconverged : result.timedOut = false) (n : Node) :
    n ∈ result.nodes ↔ ∃ stack, Steps p (.classHierarchy p) q.node ⟨q.node, []⟩ ⟨n, stack⟩ := by
  obtain ⟨c, hc⟩ : ∃ c : Setting Reach, c = ⟨p, .everything, .reach, options⟩ := ⟨_, rfl⟩
  rw [← hc] at hresult
  obtain ⟨hphase, hnodes⟩ := nodes_of_endForward hresult hconverged
  obtain rfl : p = c.program := by rw [hc]
  have hweighing : c.weighing = .reach := by rw [hc]
  obtain ⟨s, sent, hs, hdirection, hseed, hfinished, hwithin, hfinal, hfirst⟩ :=
    exists_solver_of_converged (isLaidOut_of_resolve hp) hfields hunreachable
      (by rw [hc]; exact hresolved) hweighing q rfl hphase
  rw [hnodes s hs]
  constructor
  · intro hn
    obtain ⟨hweight, -⟩ := (mem_tableOf_iff hweighing s q n).1 hn
    obtain ⟨-, q', hq', haccepts⟩ := (mem_nodeWeights_iff hfinished.sound.calls n).1 hweight
    exact exists_steps_of_accepts hwithin (fun q' => (hfinal q').1) haccepts
      (stands_of_call (hwithin.call hq')).2
  · rintro ⟨stack, hsteps⟩
    have hbottom : s.bottom ∈ s.calls.final := (hfinal _).2 (by rw [bottom, hseed])
    rw [← hseed] at hwithin hsteps hfirst
    exact (hfirst.of_steps hfinished hdirection (by rw [hc]) hwithin hsteps).mem_table hfinished
      hweighing hbottom q

/-! ### An example -/

namespace Passing

/-- A method that calls itself with an object it creates, and returns what it was called with. -/
def description : Description where
  methods := [{
    name := "Main.same"
    params := ["p"]
    body := [.new "x" "X", .call (some "y") "Main.same" [.var "x"], .ret (some (.var "p"))] }]

def var (name : String) : Local := ⟨⟨"Main.same"⟩, name⟩

def actions : List Action :=
  [.assign (var "x") (.alloc ⟨"X"⟩),
    .assign (var "y") (.call ⟨.static ⟨"Main.same"⟩, [.var (var "x")]⟩), .ret (some (.var (var "p")))]

/-- The statement at a place. -/
def stmt (index : Nat) : Statement := ⟨⟨"Main.same"⟩, index, actions[index]?.getD .nop⟩

def program : Program where
  classes := []
  methods := [.ofActions ⟨"Main.same"⟩ none [var "p"] actions]
  unreachable := []

theorem resolve_description : description.resolve = .ok program := Description.resolve_method rfl

/-- The call is an edge of the class hierarchy. -/
theorem mem_callees : ⟨"Main.same"⟩ ∈ (classHierarchy program).callees (stmt 1) := by
  have hedges := (listedBy_classHierarchy program).hasEdge (stmt 1) ⟨"Main.same"⟩
  exact List.contains_iff_mem.1 (hedges.2 (by decide))

theorem mem_callers : stmt 1 ∈ (classHierarchy program).callers ⟨"Main.same"⟩ := by
  have hedges := (listedBy_classHierarchy program).edges (.outOf ⟨"Main.same"⟩)
  have hmem : ⟨stmt 1, ⟨"Main.same"⟩⟩ ∈ (Crossing.outOf ⟨"Main.same"⟩).edges
      (.classHierarchy program) := by
    rw [hedges]
    decide
  simpa [Crossing.edges] using hmem

/-- From where the object is created into the call and out of it again. -/
theorem steps : Steps program (.classHierarchy program) ⟨stmt 0, var "x"⟩ ⟨⟨stmt 0, var "x"⟩, []⟩
    ⟨⟨stmt 2, var "y"⟩, []⟩ := by
  have hcall : Steps program (.classHierarchy program) ⟨stmt 0, var "x"⟩ ⟨⟨stmt 0, var "x"⟩, []⟩
      ⟨⟨stmt 0, var "p"⟩, [stmt 1]⟩ :=
    .tail (.single (.within (m := ⟨stmt 1, var "x"⟩) (.within (by decide +kernel))))
      (.enter (.enter (by decide +kernel) mem_callees rfl (by decide +kernel)))
  have hbody : Steps program (.classHierarchy program) ⟨stmt 0, var "x"⟩
      ⟨⟨stmt 0, var "p"⟩, [stmt 1]⟩ ⟨⟨stmt 2, var "p"⟩, [stmt 1]⟩ :=
    .tail (.single (.within (m := ⟨stmt 1, var "p"⟩) (.within (by decide +kernel))))
      (.within (.within (by decide +kernel)))
  exact .tail (hcall.trans hbody)
    (.leave (.leave (by decide +kernel) mem_callers rfl (by decide +kernel)))

def query : ForwardQuery := ⟨⟨stmt 0, var "x"⟩, rfl⟩

def setting : Setting Reach := ⟨program, .everything, .reach, {}⟩

theorem converges : ((Run.Listing.beginForward setting query).advance setting 0 1000).phase =
    .converged := by
  decide +kernel

end Passing

/-- What is passed to a call is returned by it. -/
theorem mem_nodes_passing :
    ∃ result, (Session.solveForward (.start Passing.setting) Passing.query).1 = .ok result ∧
      result.timedOut = false ∧ ⟨Passing.stmt 2, Passing.var "y"⟩ ∈ result.nodes := by
  obtain ⟨result, hresult, hconverged⟩ := Run.exists_forwardResult Passing.converges (by decide)
  refine ⟨result, hresult, hconverged, ?_⟩
  exact (mem_nodes_iff_steps Passing.resolve_description (by decide +kernel) rfl {} rfl _ hresult
    hconverged _).2 ⟨[], Passing.steps⟩

end DemandAlias.Pushdown
