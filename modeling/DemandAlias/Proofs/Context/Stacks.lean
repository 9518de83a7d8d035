import DemandAlias.Proofs.Context.Pushdown
import DemandAlias.Proofs.Saturation

/-!
# Stacks of calls in the automaton

What the automaton of calls says of a forward query in a program that does not access
fields: a transition from a local to the bottom stands for steps of the pushdown system
with nothing to return to, and one to the frame of a method for steps above any stack,
from where the method was entered (`Stands`). A transition out of a frame stands for a
call (`Entered`). The solver adds no other transitions (`closed_stacked`).
-/

namespace DemandAlias.Pushdown

open Solver

variable {site : Statement}

variable (p : Program) (g : CallGraph) (seed : Node)
variable {n : Node} {q : State}

/-- The transition from the node `n` to `q` stands for steps of the pushdown system. -/
def Stands (n : Node) (q : State) : Prop :=
  (q = .bottom seed ∧ Steps p g seed ⟨seed, []⟩ ⟨n, []⟩) ∨
    ∃ e, q = frameOf e ∧ ∀ stack, Steps p g seed ⟨e, stack⟩ ⟨n, stack⟩

/-- The frame of a method entered at `e` was pushed on `q` by the call `site`. -/
def Entered (e : Node) (site : Statement) (q : State) : Prop :=
  ∃ m, Stands p g seed m q ∧ Leads p g seed m (.push e (.call site))

/-- What the solver of a forward query may have if no statement accesses a field. -/
def stacked {ω : Type} : Bound ω where
  call t :=
    (∃ n q, t = callAt n q ∧ n.stmt.accessesField = false ∧ Stands p g seed n q) ∨
      ∃ e site q, t = ⟨frameOf e, site, q⟩ ∧ Entered p g seed e site q
  field t := ∃ n, t = fieldAt n .epsilon (.bottom seed)
  callRule topic rule :=
    rule = .reach ∨
    (∃ n m, topic = .outBy (.single n.var) n.stmt ∧ rule = m.callRule n ∧ Leads p g seed n m ∧
      IsCallMove m ∧ m.target.stmt.accessesField = false) ∨
    ∃ e site m w, topic = .outBy (frameOf e) site ∧ rule = .popMatch m w ∧
      m.stmt.accessesField = false ∧ ∀ stack, Steps p g seed ⟨e, site :: stack⟩ ⟨m, stack⟩
  fieldRule _ rule := rule = .reach ∨ ∃ m, rule = .step m
  message m := (∃ x, m = .wanted x) ∨ ∃ n, m = .unreachable n ∧ p.isUnreachable n.stmt.method = true
  watcher x n := n.stmt.accessesField = false ∧ x ∈ (Flow.Forward.flow p seed n).crossings

variable {p : Program} {g : CallGraph} {seed : Node} {ω : Type} {m : Move}

theorem Stands.step {m : Node} (h : Stands p g seed n q)
    (hm : ∀ stack, Step p g seed ⟨n, stack⟩ ⟨m, stack⟩) : Stands p g seed m q := by
  rcases h with ⟨rfl, hsteps⟩ | ⟨e, rfl, hsteps⟩
  · exact .inl ⟨rfl, hsteps.tail (hm [])⟩
  · exact .inr ⟨e, rfl, fun stack => (hsteps stack).tail (hm stack)⟩

/-- A return goes on where the frame left was pushed. -/
theorem Entered.stands {e m : Node} (h : Entered p g seed e site q)
    (hm : ∀ stack, Steps p g seed ⟨e, site :: stack⟩ ⟨m, stack⟩) : Stands p g seed m q := by
  obtain ⟨n, hn, hpush⟩ := h
  rcases hn with ⟨rfl, hsteps⟩ | ⟨e', rfl, hsteps⟩
  · exact .inl ⟨rfl, (hsteps.tail (.enter hpush)).trans (hm [])⟩
  · exact .inr ⟨e', rfl, fun stack => ((hsteps stack).tail (.enter hpush)).trans (hm stack)⟩

theorem frameOf_ne_bottom (e seed : Node) : frameOf e ≠ .bottom seed := nofun

theorem frameOf_inj {e e' : Node} (h : frameOf e = frameOf e') : e = e' := by
  obtain ⟨stmt, var⟩ := e
  cases h
  rfl

/-- A transition that a rule of the node `n` is told of is one of `n`. -/
theorem exists_eq_callAt {t : CallTransition} (h : Topic.outBy (.single n.var) n.stmt ∈ t.topics) :
    ∃ q, t = callAt n q := by
  obtain ⟨source, label, target⟩ := t
  simp only [Transition.topics, mem_cons, Topic.outBy.injEq, reduceCtorEq, false_or,
    not_mem_nil, or_false] at h
  obtain ⟨rfl, rfl⟩ := h
  exact ⟨target, rfl⟩

theorem eq_of_outBy_mem_topics {t : CallTransition} (h : Topic.outBy q site ∈ t.topics) :
    t.source = q ∧ t.label = site := by
  simp only [Transition.topics, mem_cons, Topic.outBy.injEq, reduceCtorEq, false_or,
    not_mem_nil, or_false] at h
  exact ⟨h.1.symm, h.2.symm⟩

theorem stands_of_call (h : (stacked p g seed : Bound ω).call (callAt n q)) :
    n.stmt.accessesField = false ∧ Stands p g seed n q := by
  rcases h with ⟨n', q', heq, hn, hstands⟩ | ⟨e, site, q', heq, -⟩
  · obtain ⟨stmt, var⟩ := n
    cases heq
    exact ⟨hn, hstands⟩
  · cases heq

theorem entered_of_call {e : Node} (h : (stacked p g seed : Bound ω).call ⟨frameOf e, site, q⟩) :
    Entered p g seed e site q := by
  rcases h with ⟨n', q', heq, -⟩ | ⟨e', site', q', heq, hentered⟩
  · cases heq
  · simp only [Transition.mk.injEq] at heq
    obtain ⟨he, rfl, rfl⟩ := heq
    exact frameOf_inj he ▸ hentered

/-! ### The solver stays within the bound -/

/-- What a rule of a move does with a transition of its node stands for a step. -/
theorem allows_moveRule [Weight ω] {c : Setting ω} (hm : Leads p g seed n m)
    (hcall : IsCallMove m) (htarget : m.target.stmt.accessesField = false)
    (hq : Stands p g seed n q) (w : ω) :
    ∀ x ∈ (m.callRule n).changes c (.bottom seed) (callAt n q) w, (stacked p g seed).Allows x := by
  intro x hx
  match m, hcall with
  | .step m, _ =>
    rw [mem_singleton.1 hx]
    exact .inl ⟨m, q, rfl, htarget, hq.step fun _ => .within hm⟩
  | .push m (.call site), _ =>
    rcases mem_cons.1 hx with rfl | hx
    · exact .inl ⟨m, frameOf m, rfl, htarget, .inr ⟨m, rfl, fun _ => .refl⟩⟩
    · rw [mem_singleton.1 hx]
      exact .inr ⟨m, site, q, rfl, n, hq, hm⟩
  | .pop m (.call site), _ =>
    simp only [Move.callRule, CallRule.changes] at hx
    have htop : (callAt n q).target = q := rfl
    rcases hq with ⟨rfl, hsteps⟩ | ⟨e, rfl, hsteps⟩
    · rw [if_pos htop, mem_singleton] at hx
      rw [hx]
      exact .inl ⟨m, _, rfl, htarget, .inl ⟨rfl, hsteps.tail (.leaveFirst hm)⟩⟩
    · rw [if_neg (htop ▸ frameOf_ne_bottom e seed), mem_singleton] at hx
      rw [hx]
      exact .inr (.inr ⟨e, site, m, _, rfl, rfl, htarget,
        fun stack => (hsteps (site :: stack)).tail (.leave hm)⟩)

/-- The moves of a node are within the bound. -/
theorem allows_moveChanges (hm : Leads p g seed n m) (hcall : IsCallMove m)
    (htarget : m.target.stmt.accessesField = false) :
    ∀ x ∈ m.changes n, (stacked p g seed : Bound ω).Allows x := by
  refine Move.forall_changes (.inr (.inl ⟨n, m, rfl, rfl, hm, hcall, htarget⟩)) ?_
  match m, hcall with
  | .step m, _ | .push m (.call _), _ | .pop m (.call _), _ => exact .inr ⟨m, rfl⟩

/-- The moves across an edge of the call graph lead on. -/
theorem leads_of_mem_moves {scope : Scope} {x : Crossing} {e : CallEdge}
    (hm : m ∈ x.moves p scope .forward n e) (hx : x ∈ (Flow.Forward.flow p seed n).crossings)
    (he : e ∈ x.edges g) : Leads p g seed n m := by
  unfold Crossing.moves at hm
  split at hm
  · cases hm
  · next callee hdefined =>
    cases x with
    | into =>
      obtain ⟨name, hname, rfl⟩ := mem_map.1 he
      simp only at hm
      split at hm
      · cases hm
      · refine .enter ?_ hname hdefined hm
        simpa [Flow.crossings] using hx
    | outOf =>
      obtain ⟨site, hsite, rfl⟩ := mem_map.1 he
      simp only at hm
      split at hm
      · cases hm
      · refine .leave ?_ hsite hdefined hm
        simpa [Flow.crossings] using hx

/-- The solver of a forward query stays within the bound. -/
theorem closed_stacked [Weight ω] {c : Setting ω} {s : Solver ω} (hp : c.program.IsLaidOut)
    (hstatements : ∀ s ∈ c.program.statements, s.accessesField = false)
    (hdirection : s.direction = .forward) :
    (stacked c.program g s.seed).Closed c g s where
  callRules {topic rule t} hrule htopic ht w x hx := by
    rcases hrule with rfl | ⟨n, m, rfl, rfl, hm, hcall, htarget⟩ | ⟨e, site, m, w', rfl, rfl, hm, hsteps⟩
    · cases CallRule.yields_of_mem hx
      trivial
    · obtain ⟨q, rfl⟩ := exists_eq_callAt htopic
      exact allows_moveRule hm hcall htarget (stands_of_call ht).2 w x hx
    · obtain ⟨source, label, q⟩ := t
      obtain ⟨rfl, rfl⟩ := eq_of_outBy_mem_topics htopic
      rw [mem_singleton.1 hx]
      -- The stack below the frame is the one at which the method was entered.
      exact .inl ⟨m, q, rfl, hm, (entered_of_call ht).stands hsteps⟩
  fieldRules {topic rule t} hrule _ ht x hx := by
    obtain ⟨n, rfl⟩ := ht
    rcases hrule with rfl | ⟨m, rfl⟩
    · rw [mem_singleton.1 hx]
      trivial
    · rw [mem_singleton.1 hx]
      exact ⟨m, rfl⟩
  nodes {n q l p} hcall _ _ x hx := by
    have hn := (stands_of_call hcall).1
    have hflow : s.flowAt c.program n = Flow.Forward.flow c.program s.seed n := by
      simp [flowAt, hdirection]
    rw [nodeChanges, hflow, effect_eq_none hn] at hx
    simp only [Option.toList_none, List.flatMap_nil, List.append_nil, mem_flatMap] at hx
    obtain ⟨m, hm, hx⟩ := hx
    have hleads : Leads c.program g s.seed n m := .within hm
    exact allows_moveChanges hleads (hleads.isCallMove hn)
      (hleads.target_accessesField hp hstatements hn) x hx
  crossings {n q l p} hcall _ _ x hx := by
    refine ⟨(stands_of_call hcall).1, ?_⟩
    simpa [flowAt, hdirection] using hx
  edges {x n e} hwatch he y hy := by
    obtain ⟨m, hm, hy⟩ := mem_flatMap.1 hy
    have hleads := leads_of_mem_moves (hdirection ▸ hm) hwatch.2 he
    exact allows_moveChanges hleads (hleads.isCallMove hwatch.1)
      (hleads.target_accessesField hp hstatements hwatch.1) y hy
  wanted {x n} _ := .inl ⟨x, rfl⟩
  unreachable _ _ _ hmethod := .inr ⟨_, rfl, hmethod⟩

end DemandAlias.Pushdown
