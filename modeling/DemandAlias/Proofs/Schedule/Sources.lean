import DemandAlias.Proofs.Schedule.Independence

/-!
# Where rules step from

Rules that step from a node in the automaton of calls are registered when the node is
processed, which is when it was reached in both automata. The only other ones are those for
the aliases of an object that is written to, and they step from the store. So at the end of
a run, all of its rules step from nodes that their solver has reached or from stores
(`Scheduled.reached_of_step`).

What may step is not said by what a solver has at the time, but by what it has in the end: of
a closed bound, only rules that step from nodes it lets a solver reach are needed
(`RunBound.Closed.stepping`).
-/

namespace DemandAlias

variable {N : Naming} {q : Query}

variable {ω : Type} {K : Node → Prop} {c : Setting ω}

/-- If the rule steps from a node, then from one of which `K` holds. -/
def CallRule.StepsFrom (K : Node → Prop) : CallRule ω → Prop
  | .step source _ => K source
  | _ => True

/-- If the change registers a rule that steps from a node, then from one of which `K` holds. -/
def Change.StepsFrom (K : Node → Prop) : Change ω → Prop
  | .callRule _ rule => rule.StepsFrom K
  | _ => True

section Changes

theorem stepsFrom_moveChanges {n : Node} (hn : K n) (m : Move) :
    ∀ x ∈ m.changes n, (x : Change ω).StepsFrom K := by
  refine Move.forall_changes ?_ trivial
  rcases m with _ | ⟨_, _ | _⟩ | ⟨_, _ | _⟩
  · exact hn
  · trivial
  · exact hn
  · trivial
  · exact hn

/-- Rules of the automaton of calls register no rules that step. -/
theorem stepsFrom_callRule [Weight ω] (c : Setting ω) (bottom : State) (rule : CallRule ω)
    (t : CallTransition) (w : ω) : ∀ x ∈ rule.changes c bottom t w, x.StepsFrom K := by
  intro x hx
  cases CallRule.yields_of_mem hx with
  | reach | step | enter | frame | leave | pop | popMatch | unwound | unwind => trivial
  | request h => cases h <;> trivial

theorem stepsFrom_fieldRule (rule : FieldRule) (t : FieldTransition) :
    ∀ x ∈ rule.changes t, (x : Change ω).StepsFrom K := by
  intro x hx
  cases FieldRule.yields_of_mem hx with
  | reach | step | push | below | pop | popMatch => trivial
  | request h => cases h <;> trivial

end Changes

/-! ### Bounds -/

namespace Bound

/-- What the bound allows, but for rules that step from nodes of which `K` does not hold. -/
def stepping (b : Bound ω) (K : Node → Prop) : Bound ω :=
  { b with callRule := fun topic rule => b.callRule topic rule ∧ rule.StepsFrom K }

variable {b : Bound ω}

theorem allows_stepping {x : Change ω} (hx : b.Allows x) (hfrom : x.StepsFrom K) :
    (b.stepping K).Allows x := by
  cases x with
  | callRule => exact ⟨hx, hfrom⟩
  | callRequest _ _ _ | unwind _ _ _ _ => exact ⟨hx, trivial⟩
  | _ => exact hx

/-- Only rules that step from nodes that may be processed are needed. -/
theorem Closed.stepping [Weight ω] {g : CallGraph} {s : Solver ω} (h : b.Closed c g s)
    (hnode : ∀ {n q l p}, b.call (callAt n q) → b.field (fieldAt n l p) → K n)
    (hwatcher : ∀ {x n}, b.watcher x n → K n) : (b.stepping K).Closed c g s where
  callRules hrule hmem ht w x hx :=
    allows_stepping (h.callRules hrule.1 hmem ht w x hx) (stepsFrom_callRule c s.bottom _ _ w x hx)
  fieldRules hrule hmem ht x hx :=
    allows_stepping (h.fieldRules hrule hmem ht x hx) (stepsFrom_fieldRule _ _ x hx)
  nodes {n q l p} hcall hfield hincluded x hx := by
    refine allows_stepping (h.nodes hcall hfield hincluded x hx) ?_
    rcases mem_append.1 hx with hx | hx
    · obtain ⟨m, -, hx⟩ := mem_flatMap.1 hx
      exact stepsFrom_moveChanges (hnode hcall hfield) m x hx
    · obtain ⟨e, -, hx⟩ := mem_flatMap.1 hx
      cases e <;> rw [mem_singleton.1 hx] <;> trivial
  crossings := h.crossings
  edges hwatch he y hy := by
    refine allows_stepping (h.edges hwatch he y hy) ?_
    obtain ⟨m, -, hy⟩ := mem_flatMap.1 hy
    exact stepsFrom_moveChanges (hwatcher hwatch) m y hy
  wanted := h.wanted
  unreachable := h.unreachable

end Bound

namespace RunBound

variable {b : RunBound ω} {K : Query → Node → Prop}

/-- What the bound allows, but for rules of the solver of a query that step from nodes of which
    `K` does not hold. -/
def stepping (b : RunBound ω) (K : Query → Node → Prop) : RunBound ω :=
  { b with solver := fun N q => (b.solver N q).stepping (K q) }

theorem Admits.of_stepping (h : (b.stepping K).Admits N) : b.Admits N where
  inj := h.inj
  query := h.query

theorem Copies.stepping {requester : SolverId} {state : State} (h : b.Copies N q requester state) :
    (b.stepping K).Copies N q requester state :=
  h.imp_right (⟨·, trivial⟩)

/-- What is passed on registers no rules that step, but for those that step from a store. -/
theorem Passes.stepping {sender : SolverId} {m : Message} (hstore : ∀ {q n f}, n.Writes f → K q n)
    (h : b.Passes c N sender q m) {size : Nat} (hlegit : m.Legit size) :
    (b.stepping K).Passes c N sender q m := by
  cases m with
  | wanted _ | fieldWrite _ _ _ | allocation _ _ _ | unreachable _ => exact h
  | aliasAt _ _ field other frames =>
    exact fun q' hq' x hx => Bound.allows_stepping (h q' hq' x hx)
      (Run.forall_aliasChanges (fun _ _ _ => stepsFrom_moveChanges (hstore hlegit.2) _)
        (fun _ _ _ => ⟨trivial, trivial⟩) x hx)
  | storeFound => exact ⟨h.1, h.2, trivial⟩
  | storeContext => exact ⟨h.1.stepping, h.2⟩
  | copied => exact ⟨h.1.stepping, h.2.1.stepping, h.2.2⟩

theorem Notifies.stepping {p : Program} {a : ForwardQuery} {k : Subscriber}
    (h : b.Notifies p N a k) : (b.stepping K).Notifies p N a k := by
  cases k with
  | resolve _ _ | aliases => exact h
  | fieldWrite =>
    refine ⟨h.1, fun x hx => Bound.allows_stepping (h.2 x hx) ?_⟩
    rcases mem_cons.1 hx with rfl | hx
    · trivial
    · rw [mem_singleton.1 hx]
      trivial

theorem Closed.stepping [Weight ω] (h : b.Closed c)
    (hnode : ∀ {N q n state l p}, (b.solver N q).call (callAt n state) →
      (b.solver N q).field (fieldAt n l p) → K q n)
    (hwatcher : ∀ {N q x n}, (b.solver N q).watcher x n → K q n)
    (hstore : ∀ {q n f}, n.Writes f → K q n) : (b.stepping K).Closed c where
  solver_mono hN q :=
    { h.solver_mono hN q with callRule := .imp_left (h.solver_mono hN q).callRule }
  subscriber_mono := h.subscriber_mono
  start hq :=
    have ⟨hcall, hfield, hcallRule, hfieldRule⟩ := h.start hq
    ⟨hcall, hfield, ⟨hcallRule, trivial⟩, hfieldRule⟩
  closed hN hq _ _ hg hdirection hseed :=
    (h.closed hN.of_stepping hq hg hdirection hseed).stepping hnode hwatcher
  message hN hq hm hlegit := (h.message hN.of_stepping hq hm hlegit).stepping hstore hlegit
  notice hN hq hk hlegit ha := (h.notice hN.of_stepping hq hk hlegit ha).stepping

end RunBound

/-! ### Runs at rest -/

namespace Run

variable {r : Run ω} {graph : CallGraph}

/-- What the solver of a query may have is what the run has, if it has one. -/
theorem exists_solver_mirrored {P : Bound ω → Prop} (h : P ((r.mirrored c graph).solver N q))
    (hempty : ¬P .empty) :
    ∃ id s, r.Names id q ∧ r.solver? id = some s ∧ P (r.mirror c (N.Same r.Names) id s) := by
  simp only [mirrored, solverOf?] at h
  cases hid : r.ids[q]? with
  | none =>
    rw [hid] at h
    exact absurd h hempty
  | some id =>
    rw [hid] at h
    cases hs : r.solver? id with
    | none =>
      simp only [Option.bind_some, hs] at h
      exact absurd h hempty
    | some s =>
      simp only [Option.bind_some, hs] at h
      exact ⟨id, s, hid, hs, h⟩

variable [Weight ω] [DecidableEq ω]

/-- At the end of a run, its rules step from nodes that were reached, or from stores. -/
theorem Scheduled.reached_of_step [ZeroFree ω] {session : Session ω}
    (hc : session.setting.weighing.ZeroFree) (h : Scheduled session.setting (session.begin q) r)
    (hrested : r.Rested) {id : SolverId} {s : Solver ω} (hs : r.solver? id = some s)
    {topic : Topic State Statement} {source target : Node}
    (hk : s.calls.Listens topic (.step source target)) :
    source ∈ s.reached ∨ ∃ f, source.Writes f := by
  have hcomplete := h.complete hc hrested
  -- What the run has in the end, but for other steps, is closed, so it had no others before.
  have hb : ((r.mirrored session.setting session.graph).stepping fun q n =>
      r.HasSolver q (n ∈ ·.reached) ∨ ∃ f, n.Writes f).Closed session.setting := by
    refine (hcomplete.closed_mirrored hc (h.grows_graph hc)).stepping
      (fun {N q n state l p} hcall hfield => ?_)
      (fun {N q x n} hwatcher => ?_) fun hwrites => .inr ⟨_, hwrites⟩
    · obtain ⟨id, s, hid, hs, hcall, hfield⟩ := exists_solver_mirrored
        (P := fun b => b.call (callAt n state) ∧ b.field (fieldAt n l p))
        ⟨hcall, hfield⟩ fun h => h.1
      exact .inl ⟨id, hid, s, hs, hcomplete.reached hs hcall hfield⟩
    · obtain ⟨id, s, hid, hs, hn, -⟩ := exists_solver_mirrored (P := (·.watcher x n)) hwatcher
        fun h => h
      exact .inl ⟨id, hid, s, hs, hn⟩
  have hw := h.within_narrowed hc hb
  obtain ⟨q, hq⟩ := hw.named hs
  obtain ⟨-, hsource⟩ := (hw.solver hq hs).callRule hk
  exact hsource.imp_left (hasSolver_iff hq hs (source ∈ ·.reached)).1

end Run

end DemandAlias
