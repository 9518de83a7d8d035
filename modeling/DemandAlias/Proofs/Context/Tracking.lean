import DemandAlias.Proofs.Context.Stacks
import DemandAlias.Proofs.Program.Reversal

/-!
# Stacks of calls, backward

What the automaton of calls says of a backward query in a program that does not access
fields, in the words of the pushdown system that follows an object forward. Fix the object
created at `seed`, and ask for the value at `goal`. A transition from a local to the bottom
stands for steps from the local to the goal above any stack; one to the frame of a method
stands for steps to where the method returns, and the object gets to the goal from there
(`Tracks`). A transition out of a frame stands for a return (`Returned`). The solver adds
no other transitions (`closed_tracked`).

The search backward stops where a value is created, so only the object created there is
followed from such a node.
-/

namespace DemandAlias

open Flow.Backward (flow isPassed isResultOf intoCallee toCaller)

variable {n : Node} {site : Statement} {m : Move} {q : State} {callee : Method}

/-- A solver stays within a bound all the more if the call graph has fewer edges. -/
theorem Bound.Closed.of_edges {ω : Type} [Weight ω] {b : Bound ω} {c : Setting ω}
    {g g' : CallGraph} {s : Solver ω} (h : b.Closed c g s)
    (hg : ∀ {x : Crossing} {e}, e ∈ x.edges g' → e ∈ x.edges g) : b.Closed c g' s :=
  { h with edges := fun hn he => h.edges hn (hg he) }

namespace Pushdown

open Solver

variable (p : Program) (g : CallGraph) (seed goal : Node)

/-- The object gets from the node to the goal, with nothing to return to at first. -/
def Comes (n : Node) : Prop := ∃ stack, Steps p g seed ⟨n, []⟩ ⟨goal, stack⟩

/-- The transition from the node `n` to `q` stands for steps of the pushdown system. -/
def Tracks (n : Node) (q : State) : Prop :=
  (q = .bottom goal ∧ ∀ stack, ∃ stack', Steps p g seed ⟨n, stack⟩ ⟨goal, stack'⟩) ∨
    ∃ e, q = frameOf e ∧ Comes p g seed goal e ∧ ∀ stack, Steps p g seed ⟨n, stack⟩ ⟨e, stack⟩

/-- The method left at `e` returns to the call `site`, and goes on as `q` says. -/
def Returned (e : Node) (site : Statement) (q : State) : Prop :=
  ∃ m, Tracks p g seed goal m q ∧ Leads p g seed e (.pop m (.call site))

/-- A move forward leads back to `n` from where the move backward leads to. -/
def Answered (n : Node) : Move → Prop
  | .step m => (m.stmt.allocates m.var = true → m = seed) → Leads p g seed m (.step n)
  | .push m (.call site) => Leads p g seed m (.pop n (.call site))
  | .pop m (.call site) => Leads p g seed m (.push n (.call site))
  | .push _ (.field _) | .pop _ (.field _) => False

/-- What the solver of a backward query may have if no statement accesses a field. -/
def tracked : Bound Reach where
  call t :=
    (∃ n q, t = callAt n q ∧ p.Places n.stmt ∧
      ((n.stmt.allocates n.var = true → n = seed) → Tracks p g seed goal n q)) ∨
    ∃ e site q, t = ⟨frameOf e, site, q⟩ ∧ Returned p g seed goal e site q
  field t := ∃ n, t = fieldAt n .epsilon (.bottom goal)
  callRule topic rule :=
    rule = .reach ∨
    (∃ n m, topic = .outBy (.single n.var) n.stmt ∧ rule = m.callRule n ∧
      n.stmt.allocates n.var = false ∧ Answered p g seed n m ∧ p.Places m.target.stmt) ∨
    ∃ e site m w, topic = .outBy (frameOf e) site ∧ rule = .popMatch m w ∧ p.Places m.stmt ∧
      ∀ stack, Steps p g seed ⟨m, stack⟩ ⟨e, site :: stack⟩
  fieldRule _ rule := rule = .reach ∨ (∃ m, rule = .step m) ∨
    ∃ n, rule = .request (.allocation n) ∧ (n = seed → Comes p g seed goal n)
  message m := (∃ x, m = .wanted x) ∨ (∃ n, m = .unreachable n) ∨
    ∃ n, m = .allocation n .epsilon (.bottom goal) ∧ (n = seed → Comes p g seed goal n)
  watcher x n := p.Places n.stmt ∧ n.stmt.allocates n.var = false ∧ x ∈ (flow p n).crossings

variable {p : Program} {g : CallGraph} {seed goal : Node}

/-! ### Steps -/

section

variable (h : Tracks p g seed goal n q)
include h

/-- However the search came to a node, the object gets from there to the goal. -/
theorem Tracks.comes : Comes p g seed goal n := by
  rcases h with ⟨-, hsteps⟩ | ⟨e, -, ⟨stack, hcomes⟩, hsteps⟩
  · exact hsteps []
  · exact ⟨stack, (hsteps []).trans hcomes⟩

/-- A step before the others. -/
theorem Tracks.step {m : Node} (hm : ∀ stack, Step p g seed ⟨m, stack⟩ ⟨n, stack⟩) :
    Tracks p g seed goal m q := by
  rcases h with ⟨rfl, hsteps⟩ | ⟨e, rfl, hcomes, hsteps⟩
  · refine .inl ⟨rfl, fun stack => ?_⟩
    obtain ⟨stack', hstack'⟩ := hsteps stack
    exact ⟨stack', .head (hm stack) hstack'⟩
  · exact .inr ⟨e, rfl, hcomes, fun stack => .head (hm stack) (hsteps stack)⟩

/-- Where a method returns, the search enters a frame of its own. -/
theorem Tracks.enter {e : Node} (he : Leads p g seed e (.pop n (.call site))) :
    Tracks p g seed goal e (frameOf e) := by
  obtain ⟨stack, hstack⟩ := h.comes
  exact .inr ⟨e, rfl, ⟨stack, .head (.leaveFirst he) hstack⟩, fun _ => .refl⟩

end

/-- A call that leads into a frame goes on where the frame returns to. -/
theorem Returned.tracks {e m : Node} (h : Returned p g seed goal e site q)
    (hm : ∀ stack, Steps p g seed ⟨m, stack⟩ ⟨e, site :: stack⟩) : Tracks p g seed goal m q := by
  obtain ⟨n, hn, hpop⟩ := h
  have hreturn : ∀ stack, Steps p g seed ⟨m, stack⟩ ⟨n, stack⟩ :=
    fun stack => (hm stack).tail (.leave hpop)
  rcases hn with ⟨rfl, hsteps⟩ | ⟨e', rfl, hcomes, hsteps⟩
  · refine .inl ⟨rfl, fun stack => ?_⟩
    obtain ⟨stack', hstack'⟩ := hsteps stack
    exact ⟨stack', (hreturn stack).trans hstack'⟩
  · exact .inr ⟨e', rfl, hcomes, fun stack => (hreturn stack).trans (hsteps stack)⟩

theorem tracks_of_call (h : (tracked p g seed goal).call (callAt n q)) :
    p.Places n.stmt ∧ ((n.stmt.allocates n.var = true → n = seed) → Tracks p g seed goal n q) := by
  rcases h with ⟨n', q', heq, hn, htracks⟩ | ⟨e, site, q', heq, -⟩
  · obtain ⟨stmt, var⟩ := n
    cases heq
    exact ⟨hn, htracks⟩
  · cases heq

theorem returned_of_call {e : Node} (h : (tracked p g seed goal).call ⟨frameOf e, site, q⟩) :
    Returned p g seed goal e site q := by
  rcases h with ⟨n', q', heq, -⟩ | ⟨e', site', q', heq, hreturned⟩
  · cases heq
  · simp only [Transition.mk.injEq] at heq
    obtain ⟨he, rfl, rfl⟩ := heq
    exact frameOf_inj he ▸ hreturned

/-! ### Moves -/

/-- What a rule of a move does with a transition of its node stands for steps. -/
theorem allows_trackedRule {c : Setting Reach} (hm : Answered p g seed n m)
    (hplace : p.Places m.target.stmt) (hq : Tracks p g seed goal n q) (w : Reach) :
    ∀ x ∈ (m.callRule n).changes c (.bottom goal) (callAt n q) w,
      (tracked p g seed goal).Allows x := by
  intro x hx
  rcases m with m | ⟨m, site | f⟩ | ⟨m, site | f⟩
  · rw [mem_singleton.1 hx]
    exact .inl ⟨m, q, rfl, hplace, fun hseed => hq.step fun _ => .within (hm hseed)⟩
  · -- Into a method, where it returns.
    rcases mem_cons.1 hx with rfl | hx
    · exact .inl ⟨m, frameOf m, rfl, hplace, fun _ => hq.enter hm⟩
    · rw [mem_singleton.1 hx]
      exact .inr ⟨m, site, q, rfl, n, hq, hm⟩
  · exact hm.elim
  · -- Out of a method, where it starts. If the search did not come into the method from a
    -- call, any call may have been the one.
    simp only [Move.callRule, CallRule.changes] at hx
    have htop : (callAt n q).target = q := rfl
    rcases hq with ⟨rfl, hsteps⟩ | ⟨e, rfl, hcomes, hsteps⟩
    · rw [if_pos htop, mem_singleton] at hx
      rw [hx]
      refine .inl ⟨m, _, rfl, hplace, fun _ => .inl ⟨rfl, fun stack => ?_⟩⟩
      obtain ⟨stack', hstack'⟩ := hsteps (site :: stack)
      exact ⟨stack', .head (.enter hm) hstack'⟩
    · rw [if_neg (htop ▸ frameOf_ne_bottom e goal), mem_singleton] at hx
      rw [hx]
      exact .inr (.inr ⟨e, site, m, _, rfl, rfl, hplace,
        fun stack => .head (.enter hm) (hsteps (site :: stack))⟩)
  · exact hm.elim

/-- The moves of a node are within the bound. -/
theorem allows_trackedChanges (hn : n.stmt.allocates n.var = false) (hm : Answered p g seed n m)
    (hplace : p.Places m.target.stmt) :
    ∀ x ∈ m.changes n, (tracked p g seed goal).Allows x := by
  refine Move.forall_changes (.inr (.inl ⟨n, m, rfl, rfl, hn, hm, hplace⟩)) ?_
  rcases m with m | ⟨m, site | f⟩ | ⟨m, site | f⟩
  · exact .inr (.inl ⟨m, rfl⟩)
  · exact .inr (.inl ⟨m, rfl⟩)
  · exact hm.elim
  · exact .inr (.inl ⟨m, rfl⟩)
  · exact hm.elim

section Program

variable (hp : p.IsLaidOut)
include hp

/-- Moves backward within a method are answered. -/
theorem answered_of_mem_moves (hstatements : ∀ s ∈ p.statements, s.accessesField = false)
    (hn : p.Places n.stmt) (hm : m ∈ (flow p n).moves) :
    Answered p g seed n m ∧ p.Places m.target.stmt := by
  unfold flow at hm
  split at hm
  · cases hm
  · obtain ⟨s, hs, hm⟩ := mem_flatMap.1 hm
    obtain ⟨hplace, ht, hreturn⟩ := hp.places_of_mem_predecessors hn hs
    have hfield : s.field? = none := by
      simpa [Statement.accessesField] using hstatements s hplace.mem_statements
    obtain ⟨u, rfl, hforward⟩ := Flow.Forward.step_mem_moves_of_movesOver seed ht hreturn hfield hm
    exact ⟨fun hseed => .within (hforward hseed), hplace⟩

/-- A local that was passed was passed at the start. -/
theorem start?_of_isPassed (hn : p.Places n.stmt) (h : isPassed p n.stmt n.var = true)
    (hcallee : p.method? n.stmt.method = some callee) : callee.start? = some n.stmt := by
  obtain ⟨m, hm, hmem⟩ := hn
  cases hcallee.symm.trans hm
  simp only [isPassed, hm, and_eq_true, Method.isStart, beq_iff_eq] at h
  have hplace := (hp callee (Program.mem_methods_of_method? hm)).getElem?_of_mem hmem
  rwa [h.1.1] at hplace

/-- Moves backward into a method that was called are answered. -/
theorem answered_of_mem_intoCallee {name : MethodName} (ht : n.stmt ∈ p.successors site)
    (hresult : isResultOf n.var site = true)
    (hcallee : name ∈ (classHierarchy p).callees site)
    (hdefined : p.method? name = some callee) (hm : m ∈ intoCallee site callee) :
    Answered p (.classHierarchy p) seed n m ∧ p.Places m.target.stmt := by
  obtain ⟨exit, hexit, v, haction, rfl⟩ := Flow.Backward.exists_exit_of_mem_intoCallee hm
  obtain ⟨hplace, rfl⟩ := hp.places_of_mem_exits hdefined hexit
  refine ⟨.leave ?_ (CallGraph.mem_callers_classHierarchy.2 hcallee) hdefined
    (Flow.Forward.pop_mem_toCaller ht hresult haction), hplace⟩
  simp [Flow.Forward.flow, haction]

/-- Moves backward across a call are answered. -/
theorem answered_of_mem_crossing (hnames : p.NamesDistinct) {scope : Scope} {x : Crossing}
    (hn : p.Places n.stmt) {e : CallEdge} (hm : m ∈ x.moves p scope .backward n e)
    (hx : x ∈ (flow p n).crossings) (he : e ∈ x.edges (.classHierarchy p)) :
    Answered p (.classHierarchy p) seed n m ∧ p.Places m.target.stmt := by
  have hcreates : n.stmt.allocates n.var = false := by
    refine eq_false_iff.2 fun hcreates => ?_
    simp [flow, hcreates, Flow.crossings] at hx
  simp only [flow, hcreates, Bool.false_eq_true, if_false, Flow.crossings,
    mem_append, mem_map, mem_toList] at hx
  unfold Crossing.moves at hm
  split at hm
  · cases hm
  · next callee hdefined =>
    rcases hx with ⟨site, hsite, rfl⟩ | ⟨name, hname, rfl⟩
    · obtain ⟨hbefore, hresult⟩ := mem_filter.1 hsite
      obtain ⟨name, hcallee, rfl⟩ := mem_map.1 he
      obtain ⟨-, ht, -⟩ := hp.places_of_mem_predecessors hn hbefore
      dsimp only at hm
      split at hm
      · cases hm
      · exact answered_of_mem_intoCallee hp ht hresult hcallee hdefined hm
    · obtain ⟨site, hsite, rfl⟩ := mem_map.1 he
      split at hname
      · next hpassed =>
        cases hname
        dsimp only at hm
        split at hm
        · cases hm
        · have hcallee := CallGraph.mem_callers_classHierarchy.1 hsite
          obtain ⟨u, rfl, hlists, hpush⟩ := Flow.Forward.push_mem_intoCallee p seed hm
            (start?_of_isPassed hp hn hpassed hdefined)
          exact ⟨.enter hlists hcallee hdefined hpush, hp.places_of_mem_statements hnames
            (CallGraph.mem_callees_classHierarchy_iff.1 hcallee).1⟩
      · cases hname

end Program

/-! ### The solver stays within the bound -/

/-- The solver of a backward query stays within the bound. -/
theorem closed_tracked {c : Setting Reach} {s : Solver Reach} (hp : c.program.IsLaidOut)
    (hnames : c.program.NamesDistinct)
    (hstatements : ∀ s ∈ c.program.statements, s.accessesField = false)
    (hdirection : s.direction = .backward) (seed : Node) :
    (tracked c.program (.classHierarchy c.program) seed s.seed).Closed c
      (.classHierarchy c.program) s where
  callRules {topic rule t} hrule htopic ht w x hx := by
    rcases hrule with rfl | ⟨n, m, rfl, rfl, hn, hm, hplace⟩ | ⟨e, site, m, w', rfl, rfl, hplace, hsteps⟩
    · cases CallRule.yields_of_mem hx
      trivial
    · obtain ⟨q, rfl⟩ := exists_eq_callAt htopic
      -- Nothing is created where there is a rule for a move, so the exception does not apply.
      have hq := (tracks_of_call ht).2 fun hcreates => by
        rw [hn] at hcreates
        cases hcreates
      exact allows_trackedRule hm hplace hq w x hx
    · obtain ⟨source, label, q⟩ := t
      obtain ⟨rfl, rfl⟩ := eq_of_outBy_mem_topics htopic
      rw [mem_singleton.1 hx]
      -- The call leads into the frame, and goes on where the frame returns to.
      exact .inl ⟨m, q, rfl, hplace, fun _ => (returned_of_call ht).tracks hsteps⟩
  fieldRules {topic rule t} hrule _ ht x hx := by
    obtain ⟨n, rfl⟩ := ht
    rcases hrule with rfl | ⟨m, rfl⟩ | ⟨n', rfl, hcomes⟩
    · rw [mem_singleton.1 hx]
      trivial
    · rw [mem_singleton.1 hx]
      exact ⟨m, rfl⟩
    · rw [mem_singleton.1 hx]
      exact .inr (.inr ⟨n', rfl, hcomes⟩)
  nodes {n q l p} hcall _ _ := by
    obtain ⟨hplace, htracks⟩ := tracks_of_call hcall
    refine forall_nodeChanges (fun m hm => ?_)
      (fun hforward => Direction.noConfusion (hforward.symm.trans hdirection)) fun _ _ => ?_
    · rw [hdirection] at hm
      obtain ⟨hanswered, htarget⟩ := answered_of_mem_moves hp hstatements hplace hm
      refine allows_trackedChanges (eq_false_iff.2 fun hcreates => ?_) hanswered htarget
      simp [Program.flow, flow, hcreates] at hm
    · exact .inr (.inr ⟨n, rfl, fun hseed => (htracks fun _ => hseed).comes⟩)
  crossings {n q l p} hcall _ _ x hx := by
    have hx' : x ∈ (flow c.program n).crossings := by
      simpa [flowAt, hdirection] using hx
    refine ⟨(tracks_of_call hcall).1, eq_false_iff.2 fun hcreates => ?_, hx'⟩
    simp [flow, hcreates, Flow.crossings] at hx'
  edges {x n e} hwatch he y hy := by
    obtain ⟨hplace, hcreates, hx⟩ := hwatch
    obtain ⟨m, hm, hy⟩ := mem_flatMap.1 hy
    obtain ⟨hanswered, htarget⟩ := answered_of_mem_crossing hp hnames hplace (hdirection ▸ hm) hx he
    exact allows_trackedChanges hcreates hanswered htarget y hy
  wanted {x n} _ := .inl ⟨x, rfl⟩
  unreachable _ _ _ _ := .inr (.inl ⟨_, rfl⟩)

end Pushdown

end DemandAlias
