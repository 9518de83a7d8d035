import DemandAlias.Proofs.Automaton.Acceptance
import DemandAlias.Proofs.Delivery
import DemandAlias.Proofs.Schedule.Independence

/-!
# Stacks of calls come to their bottom

At the end of a run, every state of an automaton of calls that is the target of a
transition leads on to the bottom (`Scheduled.grounded`). What a solver gets to, it thus
gets to with a stack of calls that it accepts (`Solver.Grounded.accepts`).

A frame that is entered comes with the transition to the frame it is entered from, which
leads to the bottom because it was there before. What is copied from another solver leads
to the bottom as the original does (`Complete.grounded_copy`). The order in which states
come up is not that in which they lead to each other, so the run is compared with what it
has at its end (`Run.grounding`): what is found in between leads to the bottom there.
-/

namespace DemandAlias

variable {q : Query} {t : CallTransition}

/-- The state leads to the bottom of the stack of calls. -/
inductive Solver.Grounded {ω : Type} (s : Solver ω) : State → Prop
  | bottom : Grounded s s.bottom
  | step {t : CallTransition} (ht : t ∈ s.calls.transitions) (h : Grounded s t.target) :
    Grounded s t.source

theorem Solver.Grounded.accepts {s : Solver Reach} (hfinal : s.bottom ∈ s.calls.final) {q : State}
    (h : s.Grounded q) : s.calls.Accepts q := by
  induction h with
  | bottom => exact .final hfinal
  | step ht _ ih => exact .step ht ih

/-! ### Changes that only add rules -/

section Rules

variable {ω : Type}

/-- The change adds a rule, perhaps on request. -/
def Change.AddsRule : Change ω → Prop
  | .callRule _ _ | .fieldRule _ _ | .callRequest _ _ _ | .fieldRequest _ _ _
  | .unwind _ _ _ _ => True
  | _ => False

theorem addsRule_moveChanges (n : Node) (m : Move) :
    ∀ x ∈ m.changes n, (x : Change ω).AddsRule :=
  Move.forall_changes trivial trivial

theorem addsRule_aliasChanges (p : Program) (store : Node) (field : Field) (other : Node)
    (frames : List Statement) :
    ∀ x ∈ Run.aliasChanges p store field other frames, (x : Change ω).AddsRule :=
  Run.forall_aliasChanges (fun _ _ _ => addsRule_moveChanges store _)
    fun _ _ _ => ⟨trivial, trivial⟩

theorem addsRule_watchChanges (requester : SolverId) (store : Node) (base : Local)
    (field : Field) :
    ∀ x ∈ RunBound.watchChanges requester store base field, (x : Change ω).AddsRule :=
  RunBound.forall_watchChanges trivial trivial

end Rules

/-! ### What leads to the bottom -/

section Grounds

variable {ω : Type} {R : SolverId → SolverId → Prop} {s : Solver ω}

/-- The states that are told to others lead to the bottom. -/
def Message.Grounds (s : Solver ω) : Message → Prop
  | .storeContext _ _ q => s.Grounded q
  | .copied _ t => s.Grounded t.target
  | _ => True

/-- The states that the change adds or tells to others lead to the bottom in `s`, up to the
    numbers of solvers. -/
def Change.Grounds (R : SolverId → SolverId → Prop) (s : Solver ω) : Change ω → Prop
  | .call t _ | .message (.copied _ t) => ∀ q, t.target.Matches R q → s.Grounded q
  | .message (.storeContext _ _ context) => ∀ q, context.Matches R q → s.Grounded q
  | _ => True

theorem Change.AddsRule.grounds {x : Change ω} (h : x.AddsRule) : x.Grounds R s := by
  cases x with
  | call | message => exact h.elim
  | _ => trivial

/-- The automaton of fields has no part in it. -/
theorem grounds_fieldRule (rule : FieldRule) (t : FieldTransition) :
    ∀ x ∈ rule.changes t, x.Grounds R s := by
  intro x hx
  cases FieldRule.yields_of_mem hx with
  | reach | step | push | below | pop | popMatch => trivial
  | request h => cases h <;> trivial

/-- What is told of a transition leads to the bottom if its target does. -/
theorem grounds_callRequest (p : Program) (bottom : State) (r : CallRequest)
    (ht : ∀ q, t.target.Matches R q → s.Grounded q) :
    ∀ x ∈ r.changes p bottom t, x.Grounds R s := by
  intro x hx
  cases CallRequest.yields_of_mem hx with
  | search | sites | deeper | returnAlias => trivial
  | storeContext | copied => exact ht

end Grounds

namespace Run

variable {ω : Type}

/-- What the solver `s` has, up to the numbers of solvers, as far as it leads to the bottom of
    the stack of calls. -/
def grounding (c : Setting ω) (r : Run ω) (R : SolverId → SolverId → Prop) (id : SolverId)
    (s : Solver ω) : Bound ω :=
  { r.mirror c R id s with
    call := fun t => ∃ t' ∈ s.calls.transitions, Transition.Matches R t t' ∧ s.Grounded t'.target
    message := fun m => ∃ m', r.Handled c id m' ∧ m.Matches R m' ∧ m'.Grounds s }

/-- What the run `r` has, up to the numbers of solvers, as far as it leads to the bottoms of
    the stacks of calls. -/
def grounded (c : Setting ω) (graph : CallGraph) (r : Run ω) : RunBound ω :=
  { r.mirrored c graph with
    solver := fun N q =>
      ((r.solverOf? q).map fun a => r.grounding c (N.Same r.Names) a.1 a.2).getD .empty }

section Grounding

variable {c : Setting ω} {r : Run ω} {R R' : SolverId → SolverId → Prop} {id : SolverId}
  {s : Solver ω} {graph : CallGraph}

theorem grounding_le (hR : Stronger R R') :
    (r.grounding c R id s).Le (r.grounding c R' id s) := by
  have hle : (r.mirror c R id s).Le (r.mirror c R' id s) := mirror_le hR
  refine ⟨?_, hle.field, hle.callRule, hle.fieldRule, ?_, hle.watcher⟩
  · rintro t ⟨t', ht', hmatch, hground⟩
    exact ⟨t', ht', hmatch.mono hR, hground⟩
  · rintro m ⟨m', hm', hmatch, hground⟩
    exact ⟨m', hm', hmatch.mono hR, hground⟩

theorem solver_grounded (hq : r.Names id q) (hs : r.solver? id = some s) (N : Naming) :
    (r.grounded c graph).solver N q = r.grounding c (N.Same r.Names) id s := by
  have hid : r.ids[q]? = some id := hq
  simp [grounded, solverOf?, hid, hs]

/-- What is allowed still is, if it leads to the bottom. -/
theorem allows_grounding {x : Change ω} (hx : (r.mirror c R id s).Allows x)
    (hground : x.Grounds R s) : (r.grounding c R id s).Allows x := by
  cases x with
  | call =>
    obtain ⟨t', ht', hmatch⟩ := hx
    exact ⟨t', ht', hmatch, hground _ hmatch.target⟩
  | message =>
    obtain ⟨m', hm', hmatch⟩ := hx
    refine ⟨m', hm', hmatch, ?_⟩
    cases hmatch with
    | storeContext _ _ hq => exact hground _ hq
    | copied _ ht => exact hground _ ht.target
    | _ => trivial
  | _ => exact hx

end Grounding

variable [Weight ω] [DecidableEq ω] {c : Setting ω} {r : Run ω}

/-! ### A solver that has nothing left to do -/

section Solver

variable {R : SolverId → SolverId → Prop} {id : SolverId} {s : Solver ω}

theorem Complete.grounds_callRule (h : r.Complete c) (hR : Unambiguous R)
    (hs : r.solver? id = some s) {topic : Topic State Statement} {rule rule' : CallRule ω}
    (hk : s.calls.Listens topic rule') (hrule : rule.Matches R rule') {t' : CallTransition}
    (ht' : t' ∈ s.calls.transitions) (hmem : topic ∈ t'.topics) (ht : Transition.Matches R t t')
    (hground : s.Grounded t'.target) (bottom : State) (w : ω) :
    ∀ x ∈ rule.changes c bottom t w, x.Grounds R s := by
  have htarget : ∀ q, t.target.Matches R q → s.Grounded q := fun q hq =>
    ht.target.unique hR hq ▸ hground
  intro x hx
  cases CallRule.yields_of_mem hx with
  | reach | pop | unwind => trivial
  | step | frame | leave | popMatch | unwound => exact htarget
  | enter _ target site =>
    -- The frame leads to what it was entered from.
    intro q hq
    cases hrule
    obtain ⟨w', -, hdone⟩ := (h.finished hs).call hk ht' hmem
    have hframe : ⟨Solver.frameOf target, site, t'.target⟩ ∈ s.calls.transitions :=
      hdone _ (mem_cons_of_mem _ mem_cons_self)
    rw [← (State.matches_frameOf R target).unique hR hq]
    exact .step hframe hground
  | request => exact grounds_callRequest c.program bottom _ htarget x hx

/-- What leads to the bottom only leads to what does. -/
theorem Complete.closed_grounding [ZeroFree ω] (hc : c.weighing.ZeroFree) (h : r.Complete c)
    (hR : Unambiguous R) (hs : r.solver? id = some s) {g : CallGraph} {s₀ : Solver ω}
    (hg : ∀ {x : Crossing} {e}, e ∈ x.edges g → e ∈ x.edges r.graph)
    (hdirection : s₀.direction = s.direction) (hseed : s₀.seed = s.seed) :
    (r.grounding c R id s).Closed c g s₀ := by
  have hclosed := h.closed_mirror hc hR hs hg hdirection hseed
  have hcall : ∀ {t}, (r.grounding c R id s).call t → (r.mirror c R id s).call t :=
    fun ⟨t', ht', hmatch, _⟩ => ⟨t', ht', hmatch⟩
  -- The mirror allows all of it, and nothing but the rules of calls adds calls.
  refine ⟨?_, ?_, ?_, ?_, ?_, ?_, ?_⟩
  · intro topic rule t hrule hmem ht w x hx
    refine allows_grounding (hclosed.callRules hrule hmem (hcall ht) w x hx) ?_
    obtain ⟨topic', rule', hk, htopic, hmatch⟩ := hrule
    obtain ⟨t', ht', hmatch', hground⟩ := ht
    exact h.grounds_callRule hR hs hk hmatch ht' (htopic.mem_topics hR hmatch' hmem) hmatch' hground
      s₀.bottom w x hx
  · intro topic rule t hrule hmem ht x hx
    exact allows_grounding (hclosed.fieldRules hrule hmem ht x hx) (grounds_fieldRule rule t x hx)
  · intro n q l p hq hp hincluded x hx
    refine allows_grounding (hclosed.nodes (hcall hq) hp hincluded x hx) ?_
    exact Solver.forall_nodeChanges (fun m _ x hx => (addsRule_moveChanges n m x hx).grounds)
      (fun _ _ => trivial) (fun _ _ => trivial) x hx
  · intro n q l p hq hp hincluded x hx
    exact hclosed.crossings (hcall hq) hp hincluded x hx
  · intro x n e hx he y hy
    refine allows_grounding (hclosed.edges hx he y hy) ?_
    obtain ⟨m, -, hy⟩ := mem_flatMap.1 hy
    exact (addsRule_moveChanges n m y hy).grounds
  · intro x n hx
    obtain ⟨m', hm', hmatch⟩ := hclosed.wanted hx
    refine ⟨m', hm', hmatch, ?_⟩
    cases hmatch
    trivial
  · intro n q l p hq hp hcheck hunreachable
    obtain ⟨m', hm', hmatch⟩ := hclosed.unreachable (hcall hq) hp hcheck hunreachable
    refine ⟨m', hm', hmatch, ?_⟩
    cases hmatch
    trivial

/-- The copy of a state leads to the bottom if the state does. -/
theorem Complete.grounded_copy (h : r.Complete c) {sender requester : SolverId} {s s₁ : Solver ω}
    (hs : r.solver? sender = some s) (hs₁ : r.solver? requester = some s₁) {q : State}
    (hground : s.Grounded q) :
    r.CopiesOut sender requester q → ∀ {copy}, r.IsCopy sender requester q copy →
      s₁.Grounded copy := by
  -- By induction on the way to the bottom, whose transitions are copied one by one.
  induction hground with
  | bottom =>
    intro _ copy hcopy
    rw [hcopy.eq_importOf hs₁ hs, importOf, if_pos rfl]
    exact .bottom
  | @step t ht _ ih =>
    intro hcopies copy hcopy
    by_cases hbottom : t.source = s.bottom
    · rw [hcopy.eq_importOf hs₁ hs, importOf, if_pos hbottom]
      exact .bottom
    · obtain ⟨-, htarget, q, q', hq, hq', hcall⟩ := h.copy_handled hs hcopies hbottom ht
      rw [hcopy.eq_importOf hs₁ hs, ← hq.eq_importOf hs₁ hs]
      exact .step (hcall.of_solver? hs₁) (ih htarget hq')

end Solver

/-! ### A run that has nothing left to do -/

section Run

variable {graph : CallGraph} {N : Naming}

omit [Weight ω] [DecidableEq ω] in
/-- What is allowed to the solver of a query still is, if it neither adds calls nor tells of
    them. -/
theorem allows_grounded {x : Change ω} (hground : ∀ R s, x.Grounds R s)
    (hx : ((r.mirrored c graph).solver N q).Allows x) :
    ((r.grounded c graph).solver N q).Allows x := by
  simp only [mirrored, grounded] at hx ⊢
  generalize r.solverOf? q = a at hx ⊢
  cases a with
  | none => exact hx
  | some => exact allows_grounding hx (hground _ _)

/-- Messages about what leads to the bottom only lead to what does. -/
theorem Complete.passes_grounded [ZeroFree ω] (h : r.Complete c) (hgraph : graph.Grows r.graph)
    (hN : N.Inj) {sender sender' : SolverId} (hq : N sender q) (hq' : r.Names sender' q)
    {s : Solver ω} (hs : r.solver? sender' = some s) {m m' : Message}
    (hhandled : r.Handled c sender' m') (hm : m.Matches (N.Same r.Names) m')
    (hground : m'.Grounds s) {size : Nat} (hlegit : m.Legit size) :
    (r.grounded c graph).Passes c N sender q m := by
  have hpasses := h.passes_mirrored hgraph hN hq hq' hhandled hm hlegit
  have hcopies : ∀ {requester state}, (r.mirrored c graph).Copies N q requester state →
      (r.grounded c graph).Copies N q requester state :=
    fun {requester state} => .imp_right fun hk =>
      allows_grounded (x := .callRule (.out state) (.request (.copy requester)))
        (fun _ _ => trivial) hk
  cases hm with
  | wanted _ | fieldWrite _ _ _ | unreachable _ => exact hpasses
  | allocation n label continuation =>
    intro hn
    obtain ⟨hfound, hstores⟩ := hpasses hn
    refine ⟨hfound, fun hl => ⟨(hstores hl).1, ?_⟩⟩
    exact allows_grounded (x := .fieldRule .all (.request (.storesOf sender label continuation)))
      (fun _ _ => trivial) (hstores hl).2
  | aliasAt _ store field other frames =>
    exact fun q' hq' x hx => allows_grounded
      (fun _ _ => (addsRule_aliasChanges c.program store field other frames x hx).grounds)
      (hpasses q' hq' x hx)
  | @storeFound requester _ _ continuation store value =>
    exact ⟨fun q' hq' => allows_grounded
        (x := .fieldRule (.out continuation) (.popMatch ⟨store.stmt, value⟩))
        (fun _ _ => trivial) (hpasses.1 q' hq'),
      allows_grounded (x := .callRule (.outBy (.single store.var) store.stmt)
        (.request (.storeContext requester ⟨store.stmt, value⟩))) (fun _ _ => trivial) hpasses.2⟩
  | storeContext hrequester value hcontext =>
    refine ⟨hcopies hpasses.1, fun q₂ hq₂ => ?_⟩
    obtain ⟨hout, copy, hcopy, s₁, hs₁, hcall⟩ := hhandled
    obtain ⟨q₁, hq₁, hq₁'⟩ := hrequester
    cases hN hq₁ hq₂
    rw [solver_grounded hq₁' hs₁]
    exact ⟨_, hcall, Transition.matches_callAt value (h.matches_copyOf hq hq' hq₁' hcontext hcopy),
      h.grounded_copy hs hs₁ hground hout hcopy⟩
  | copied hrequester ht =>
    refine ⟨hcopies hpasses.1, hcopies hpasses.2.1, fun q₂ hq₂ => ?_⟩
    obtain ⟨-, htarget, copy, copy', hcopy, hcopy', s₁, hs₁, hcall⟩ := hhandled
    obtain ⟨q₁, hq₁, hq₁'⟩ := hrequester
    cases hN hq₁ hq₂
    rw [solver_grounded hq₁' hs₁]
    exact ⟨_, hcall, ⟨h.matches_copyOf hq hq' hq₁' ht.source hcopy, ht.label,
      h.matches_copyOf hq hq' hq₁' ht.target hcopy'⟩,
      h.grounded_copy hs hs₁ hground htarget hcopy'⟩

theorem Complete.closed_grounded [ZeroFree ω] (hc : c.weighing.ZeroFree) (h : r.Complete c)
    (hgraph : graph.Grows r.graph) : (r.grounded c graph).Closed c where
  solver_mono {N N'} hN q := by
    simp only [grounded]
    cases r.solverOf? q with
    | none => exact ⟨id, id, id, id, id, id⟩
    | some => exact grounding_le (same_mono hN)
  subscriber_mono := (h.closed_mirrored hc hgraph).subscriber_mono
  start {N q} hq := by
    obtain ⟨hcall, hfield, hcalls, hfields⟩ := (h.closed_mirrored hc hgraph).start (N := N) hq
    obtain ⟨id, hid⟩ := hq
    obtain ⟨s, hs, hseed, -⟩ := h.ids hid
    rw [solver_mirrored hid hs] at hcall hfield hcalls hfields
    rw [solver_grounded hid hs]
    refine ⟨?_, hfield, hcalls, hfields⟩
    obtain ⟨t', ht', hmatch⟩ := hcall
    refine ⟨t', ht', hmatch, ?_⟩
    rw [(hmatch.target.eq_bottom_iff q.node).1 rfl, ← hseed]
    exact .bottom
  closed {N q} hN hq {g s₀} hg hdirection hseed := by
    obtain ⟨id, hid⟩ := hq
    obtain ⟨s, hs, hseed', hdirection'⟩ := h.ids hid
    rw [solver_grounded hid hs]
    exact h.closed_grounding hc (unambiguous_same hN.injective) hs hg
      (hdirection.trans hdirection'.symm) (hseed.trans hseed'.symm)
  message {N sender q m size} hN hq hm hlegit := by
    obtain ⟨sender', hq'⟩ := hN.query hq
    obtain ⟨s, hs, -⟩ := h.ids hq'
    rw [solver_grounded hq' hs] at hm
    obtain ⟨m', hhandled, hmatch, hground⟩ := hm
    exact h.passes_grounded hgraph hN.injective hq hq' hs hhandled hmatch hground hlegit
  notice {N q k a size} _ _ hk hlegit ha := by
    obtain ⟨id, hid, k', hk', hmatch⟩ := hk
    obtain ⟨id', hid', ha⟩ := ha
    cases some.inj (hid.symm.trans hid')
    have hnotifies : (r.mirrored c graph).Notifies c.program N a k :=
      h.notifies_mirrored hgraph hmatch (h.notified hk' ha) hlegit
    cases k with
    | resolve => exact hnotifies
    | fieldWrite requester store base field =>
      exact ⟨hnotifies.1, fun x hx => allows_grounded
        (fun _ _ => (addsRule_watchChanges requester store base field x hx).grounds)
        (hnotifies.2 x hx)⟩
    | aliases => exact hnotifies

end Run

variable [ZeroFree ω]

/-- At the end of a run, what a transition leads to leads to the bottom. -/
theorem Scheduled.grounded {session : Session ω} (hc : session.setting.weighing.ZeroFree)
    {r : Run ω} (h : Scheduled session.setting (session.begin q) r) (hrested : r.Rested)
    {id : SolverId} {s : Solver ω} (hs : r.solver? id = some s) (ht : t ∈ s.calls.transitions) :
    s.Grounded t.target := by
  have hw : r.Within (r.grounded session.setting session.graph) :=
    h.within_narrowed hc ((h.complete hc hrested).closed_grounded hc (h.grows_graph hc))
  obtain ⟨q, hq⟩ := hw.named hs
  have hin := hw.solver hq hs
  rw [solver_grounded hq hs] at hin
  obtain ⟨t', -, hmatch, hground⟩ := hin.call ht
  have hsame : ∀ {id id'}, r.Names.Same r.Names id id' → id = id' := by
    rintro id id' ⟨q, hq, hq'⟩
    exact some.inj (hq.symm.trans hq')
  rwa [hmatch.target.eq hsame]

end Run

end DemandAlias
