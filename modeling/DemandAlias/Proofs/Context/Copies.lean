import DemandAlias.Proofs.Run.Marks
import DemandAlias.Proofs.Schedule.Independence
import DemandAlias.Proofs.Solver.Sending

/-!
# Where copied contexts come from

A solver that goes on at a store found by another one copies the calling contexts of the store from
it, with the transitions that lead on from them. Each copy names the solver it is from. That a state
looks like a copy does not say much, though: that the transitions out of the original are copied as
well is a promise of the run, which it makes when it makes the copy.

Here a run that has nothing left to do is compared with all it was before, as in
`DemandAlias.Proofs.Schedule.Grounding`. A state that is a copy is *backed* by the run at its end if
the run copies the transitions out of the original, and a transition that leads out of a copy if the
original has a transition that it is a copy of (`Run.Backs`, `Run.BacksCall`). Solvers only take
copies over from the transitions they have (`Bound.closed_copying`), and new copies come with
messages that the run at its end has passed on (`Run.Complete.passesOn_of_sends`). So all copies are
backed (`Run.Reachable.within_copying`), and as automata only mention states for a reason
(`Automaton.Occurs`), all states are (`Run.Reachable.backs_of_mem_states`).
-/

namespace DemandAlias

open Solver
open OrderedSet (mem_insert)

variable {e : State}

variable {ω : Type} {m : Message}

/-! ### Reasons to mention a state -/

namespace Automaton

variable {σ Λ ω κ : Type} [DecidableEq σ] [Hashable σ] [DecidableEq Λ] [Hashable Λ]
  {a : Automaton σ Λ ω κ}

/-- The automaton is entered or left at the state, or has a transition or a listener there. -/
inductive Occurs (a : Automaton σ Λ ω κ) : σ → Prop
  | initial {q : σ} (hq : q ∈ a.initial) : Occurs a q
  | final {q : σ} (hq : q ∈ a.final) : Occurs a q
  | source {t : Transition σ Λ} (ht : t ∈ a.transitions) : Occurs a t.source
  | target {t : Transition σ Λ} (ht : t ∈ a.transitions) : Occurs a t.target
  | listened {topic : Topic σ Λ} {k : κ} (hk : a.Listens topic k) {q : σ}
      (hq : topic.state? = some q) : Occurs a q

/-- What occurs in an automaton occurs in one that has more. -/
theorem Occurs.mono {a' : Automaton σ Λ ω κ} {q : σ} (h : a.Occurs q)
    (hinitial : ∀ q ∈ a.initial, q ∈ a'.initial) (hfinal : ∀ q ∈ a.final, q ∈ a'.final)
    (htransitions : ∀ t ∈ a.transitions, t ∈ a'.transitions)
    (hlistens : ∀ topic k, a.Listens topic k → a'.Listens topic k) : a'.Occurs q := by
  cases h with
  | initial hq => exact .initial (hinitial _ hq)
  | final hq => exact .final (hfinal _ hq)
  | source ht => exact .source (htransitions _ ht)
  | target ht => exact .target (htransitions _ ht)
  | listened hk hq => exact .listened (hlistens _ _ hk) hq

/-- Every state occurs. -/
def Tidy (a : Automaton σ Λ ω κ) : Prop := ∀ q ∈ a.states, a.Occurs q

theorem tidy_empty : (empty : Automaton σ Λ ω κ).Tidy := fun _ hq => nomatch hq

theorem Tidy.addInitial (h : a.Tidy) (s : σ) : (a.addInitial s).Tidy := by
  intro q hq
  rcases (mem_insert ..).1 hq with rfl | hq
  · exact .initial ((mem_insert ..).2 (.inl rfl))
  · exact (h q hq).mono (fun _ hq => (mem_insert ..).2 (.inr hq)) (fun _ hq => hq)
      (fun _ ht => ht) fun _ _ hk => hk

theorem Tidy.addFinal (h : a.Tidy) (s : σ) : (a.addFinal s).Tidy := by
  intro q hq
  rcases (mem_insert ..).1 hq with rfl | hq
  · exact .final ((mem_insert ..).2 (.inl rfl))
  · exact (h q hq).mono (fun _ hq => hq) (fun _ hq => (mem_insert ..).2 (.inr hq))
      (fun _ ht => ht) fun _ _ hk => hk

theorem Tidy.listen (h : a.Tidy) (topic : Topic σ Λ) (k : κ) :
    (a.listen topic k).Tidy := by
  intro q hq
  have hold : q ∈ a.states ∨ topic.state? = some q := by
    cases topic with
    | out s | outBy s _ | into s =>
      rcases (mem_insert ..).1 hq with rfl | hq
      · exact .inr rfl
      · exact .inl hq
    | all => exact .inl hq
  rcases hold with hq | hq
  · refine (h q hq).mono (fun _ hq => by rwa [initial_listen]) (fun _ hq => by rwa [final_listen])
      (fun _ ht => by rwa [transitions_listen]) fun _ _ hk => (listens_listen ..).2 (.inl hk)
  · exact .listened ((listens_listen ..).2 (.inr ⟨rfl, rfl⟩)) hq

theorem Tidy.add [Weight ω] [DecidableEq ω] (h : a.Tidy) (t : Transition σ Λ) (w : ω) :
    (a.add t w).Tidy := by
  unfold Automaton.add
  split
  · exact h
  split
  · dsimp only
    split
    · exact h
    · exact fun q hq => (h q hq).mono (fun _ hq => hq) (fun _ hq => hq) (fun _ ht => ht)
        fun _ _ hk => hk
  · have hfiled : ∀ u, u ∈ (t.topics.foldl (fun m topic => m.file topic t) a.stored).get .all ↔
        u ∈ a.transitions ∨ u = t ∧ .all ∈ t.topics := fun u =>
      mem_get_foldl_file t.topics t a.stored .all u
    intro q hq
    rcases (mem_insert ..).1 hq with rfl | hq
    · exact .target ((hfiled t).2 (.inr ⟨rfl, t.all_mem_topics⟩))
    rcases (mem_insert ..).1 hq with rfl | hq
    · exact .source ((hfiled t).2 (.inr ⟨rfl, t.all_mem_topics⟩))
    · exact (h q hq).mono (fun _ hq => hq) (fun _ hq => hq) (fun u hu => (hfiled u).2 (.inl hu))
        fun _ _ hk => hk

end Automaton

section Tidy

variable [Weight ω] [DecidableEq ω]

theorem Solver.endures_tidy (c : Setting ω) : Endures c fun s => s.calls.Tidy where
  make {s} x h := by
    rcases calls_make_cases s x with heq | ⟨q, heq⟩ | ⟨t, w, -, heq⟩ | ⟨topic, rule, -, heq⟩
    · exact heq ▸ h
    · exact heq ▸ h.addInitial q
    · exact heq ▸ h.add t w
    · exact heq ▸ h.listen topic rule
  note h _ _ _ _ := h
  calls h hpoll := by
    obtain ⟨events, rfl, -, -⟩ := poll?_eq_some hpoll
    exact fun q hq => (h q hq).mono (fun _ hq => hq) (fun _ hq => hq) (fun _ ht => ht)
      fun _ _ hk => hk
  fields h _ := h
  report h _ _ := h
  visit h _ _ := h

end Tidy

/-! ### Backing -/

namespace Run

/-- The run copies the transitions out of this state of the solver of `q` to `requester`. -/
def Exports (r : Run ω) (q : Query) (requester : SolverId) (e : State) : Prop :=
  ∃ id, r.Names id q ∧ .copy id requester e ∈ r.registered

section Backing

variable (r : Run ω) (N : Naming) (q : Query)

/-- If the solver of `q` has the state as a copy, then not of the bottom of another solver, and the
    run copies the transitions out of the original to it as well. -/
def Backs (e : State) : Prop :=
  ∀ ⦃id e'⦄, e = .generated e' (.imported id) →
    ∃ q' requester, N id q' ∧ N requester q ∧ e' ≠ .bottom q'.node ∧ r.Exports q' requester e'

/-- The states of the transition are backed, and if it leads out of a copy, then it is the copy of
    one that leads out of the original. -/
structure BacksCall (t : CallTransition) : Prop where
  source : r.Backs N q t.source
  target : r.Backs N q t.target
  original : ∀ ⦃id e⦄, t.source = .generated e (.imported id) →
    ∃ q' e', N id q' ∧ r.HasSolver q' (fun s => ⟨e, t.label, e'⟩ ∈ s.calls.transitions) ∧
      t.target = q'.copyOf id q e'

def BacksTopic (topic : Topic State Statement) : Prop := ∀ e, topic.state? = some e → r.Backs N q e

/-- The states of the solver of `q` that the message tells of are backed. -/
def BacksMessage : Message → Prop
  | .storeContext _ _ context => r.Backs N q context
  | .copied _ t => r.Backs N q t.source ∧ r.Backs N q t.target
  | _ => True

/-- The run does with the message of the solver of `q` what there is to do. -/
def PassesOn : Message → Prop
  | .storeContext requester _ context =>
    context = .bottom q.node ∨ r.Exports q requester context
  | .copied requester t => r.HasSolver q (fun s => t ∈ s.calls.transitions) ∧
    (t.source = .bottom q.node ∨ r.Exports q requester t.source) ∧
    (t.target = .bottom q.node ∨ r.Exports q requester t.target)
  | _ => True

end Backing

end Run

/-- What the solver of `q` may have if its copies are backed, with messages of which `K` holds. -/
def Bound.copying (r : Run ω) (N : Naming) (q : Query) (K : Message → Prop) : Bound ω where
  call t := r.BacksCall N q t
  field _ := True
  callRule topic _ := r.BacksTopic N q topic
  fieldRule _ _ := True
  message m := r.BacksMessage N q m ∧ K m
  watcher _ _ := True

/-- What a run may have if its copies are backed by `r`. -/
def RunBound.copying (r : Run ω) (graph : CallGraph) : RunBound ω where
  graph
  query _ := True
  solver N q := .copying r N q (r.PassesOn q)
  edge _ _ := True
  allocation _ _ := True
  subscriber _ _ _ := True

namespace Run

variable {r : Run ω} {N N' : Naming} {q : Query}

/-! ### With more solvers -/

section Mono

variable (hN : N.Le N')

include hN

theorem Backs.mono (h : r.Backs N q e) : r.Backs N' q e := by
  intro id e' he
  obtain ⟨q', requester, hid, hrequester, hexports⟩ := h he
  exact ⟨q', requester, hN hid, hN hrequester, hexports⟩

theorem BacksCall.mono {t : CallTransition} (h : r.BacksCall N q t) : r.BacksCall N' q t where
  source := h.source.mono hN
  target := h.target.mono hN
  original id e he := by
    obtain ⟨q', e', hid, horiginal⟩ := h.original he
    exact ⟨q', e', hN hid, horiginal⟩

theorem BacksMessage.mono (h : r.BacksMessage N q m) : r.BacksMessage N' q m := by
  cases m with
  | storeContext => exact Backs.mono hN h
  | copied => exact And.imp (Backs.mono hN) (Backs.mono hN) h
  | _ => trivial

end Mono

/-! ### What a solver does -/

theorem backs_single (v : Local) : r.Backs N q (.single v) := by
  rintro _ _ ⟨⟩

theorem backs_bottom (n : Node) : r.Backs N q (.bottom n) := by
  rintro _ _ ⟨⟩

theorem backs_frameOf (n : Node) : r.Backs N q (frameOf n) := by
  rintro _ _ ⟨⟩

theorem backsTopic_single (v : Local) (l : Statement) :
    r.BacksTopic N q (.outBy (.single v) l) := by
  rintro _ ⟨⟩
  exact backs_single v

theorem backsCall_callAt (n : Node) (h : r.Backs N q e) :
    r.BacksCall N q (callAt n e) where
  source := backs_single n.var
  target := h
  original := by rintro _ _ ⟨⟩

section Changes

variable {K : Message → Prop}

theorem allows_copying_move (n : Node) (m : Move) :
    ∀ x ∈ m.changes n, (Bound.copying r N q K).Allows x :=
  Move.forall_changes (backsTopic_single n.var n.stmt) trivial

theorem allows_copying_callRule [Weight ω] (c : Setting ω) (bottom : State) (rule : CallRule ω)
    {t : CallTransition} (ht : r.BacksCall N q t) (w : ω) :
    ∀ x ∈ rule.changes c bottom t w, (Bound.copying r N q fun _ => True).Allows x := by
  have htopic : ∀ {topic : Topic State Statement}, topic.state? = some t.target →
      r.BacksTopic N q topic := fun htopic e he =>
    some.inj (htopic.symm.trans he) ▸ ht.target
  intro x hx
  cases CallRule.yields_of_mem hx with
  | reach => trivial
  | step | leave | popMatch | unwound => exact backsCall_callAt _ ht.target
  | enter => exact backsCall_callAt _ (backs_frameOf _)
  | frame =>
    refine ⟨backs_frameOf _, ht.target, ?_⟩
    rintro _ _ ⟨⟩
  | pop | unwind => exact htopic rfl
  | request h =>
    cases h with
    | search | sites | deeper => exact htopic rfl
    | returnAlias => trivial
    | storeContext => exact ⟨ht.target, trivial⟩
    | copied => exact ⟨⟨ht.source, ht.target⟩, trivial⟩

theorem allows_copying_fieldRule (rule : FieldRule) (t : FieldTransition) :
    ∀ x ∈ rule.changes t, (Bound.copying r N q fun _ => True).Allows x := by
  intro x hx
  cases FieldRule.yields_of_mem hx with
  | request h =>
    cases h with
    | returnAlias | allocation | aliasAt | storeFound => exact ⟨trivial, trivial⟩
  | _ => trivial

end Changes

end Run

/-- A solver only takes over copies from transitions that it has. -/
theorem Bound.closed_copying [Weight ω] (r : Run ω) (N : Naming) (q : Query) (c : Setting ω)
    (g : CallGraph) (s : Solver ω) : (Bound.copying r N q fun _ => True).Closed c g s where
  callRules _ _ ht w := Run.allows_copying_callRule c s.bottom _ ht w
  fieldRules _ _ _ := Run.allows_copying_fieldRule _ _
  nodes {n _ _ _} _ _ _ := Solver.forall_nodeChanges (fun m _ => Run.allows_copying_move n m)
    (fun _ _ => ⟨trivial, trivial⟩) fun _ _ => trivial
  crossings _ _ _ _ _ := trivial
  edges {_ n _} _ _ := List.forall_mem_flatMap.2 fun m _ => Run.allows_copying_move n m
  wanted _ := ⟨trivial, trivial⟩
  unreachable _ _ _ _ := ⟨trivial, trivial⟩

/-! ### What is passed on -/

namespace Run

variable {r : Run ω} {N : Naming} {q : Query}

/-- The copy of a state is backed if the transitions out of the state are copied, too. -/
theorem backs_copyOf {sender requester : SolverId} (hsender : N sender q) {q' : Query}
    (hrequester : N requester q') (h : e = .bottom q.node ∨ r.Exports q requester e) :
    r.Backs N q' (q.copyOf sender q' e) := by
  unfold Query.copyOf
  split
  · exact backs_bottom q'.node
  · next hbottom =>
    rintro _ _ ⟨⟩
    exact ⟨q, requester, hsender, hrequester, hbottom, h.resolve_left hbottom⟩

theorem passes_copying (c : Setting ω) (graph : CallGraph) {sender : SolverId}
    (hsender : N sender q) (hm : r.BacksMessage N q m) (hpassed : r.PassesOn q m) :
    (RunBound.copying r graph).Passes c N sender q m := by
  have hcopies : ∀ {requester e}, r.Backs N q e →
      (RunBound.copying r graph).Copies N q requester e := fun he =>
    .inr fun _ heq => some.inj heq ▸ he
  cases m with
  | wanted =>
    exact fun _ site _ => RunBound.resolves_of_free (fun _ => trivial) (fun _ _ => trivial)
      (fun _ _ _ => trivial) c.program site
  | fieldWrite => exact ⟨trivial, trivial⟩
  | allocation =>
    exact fun _ => ⟨fun _ => trivial, fun _ => ⟨trivial, trivial⟩⟩
  | aliasAt _ store =>
    exact fun q' _ => forall_aliasChanges (fun _ _ _ => allows_copying_move _ _)
      fun _ _ _ => ⟨trivial, backsTopic_single store.var store.stmt⟩
  | storeFound _ _ store =>
    exact ⟨fun _ _ => trivial, backsTopic_single store.var store.stmt⟩
  | storeContext _ value =>
    exact ⟨hcopies hm, fun q' hq' => backsCall_callAt value (backs_copyOf hsender hq' hpassed)⟩
  | copied _ t =>
    obtain ⟨hhas, hsource, htarget⟩ := hpassed
    refine ⟨hcopies hm.1, hcopies hm.2, fun q' hq' =>
      ⟨backs_copyOf hsender hq' hsource, backs_copyOf hsender hq' htarget, ?_⟩⟩
    intro id e heq
    unfold Query.copyOf at heq
    split at heq
    · cases heq
    · cases heq
      exact ⟨q, t.target, hsender, hhas, rfl⟩
  | unreachable => trivial

theorem passing_copying [Weight ω] (c : Setting ω) (r : Run ω) (graph : CallGraph) :
    (RunBound.copying r graph).Passing c where
  solver_mono hN q := ⟨.mono hN, id, fun h e he => (h e he).mono hN, id,
    fun h => ⟨h.1.mono hN, h.2⟩, id⟩
  subscriber_mono _ _ _ h := h
  start {N q} _ := ⟨backsCall_callAt q.node (backs_bottom q.node), trivial, nofun, trivial⟩
  message _ hsender hm _ := passes_copying c graph hsender hm.1 hm.2
  notice {N q k a size} _ _ _ _ _ := by
    cases k with
    | resolve => exact fun _ _ => .inr ⟨trivial, trivial⟩
    | fieldWrite _ store base =>
      exact ⟨trivial, RunBound.forall_watchChanges trivial (backsTopic_single base store.stmt)⟩
    | aliases => trivial

/-! ### Runs -/

/-- What a solver does keeps to the bound, if the run passes on what it sends. -/
theorem within_copying_of_passesOn {s s' : Solver ω}
    (hs : s.Within (.copying r N q (r.PassesOn q)))
    (hstep : s.Within (.copying r N q fun _ => True) → s'.Within (.copying r N q fun _ => True))
    (hpassed : ∀ m ∈ s'.outbox, r.PassesOn q m) : s'.Within (.copying r N q (r.PassesOn q)) := by
  have hs' := hstep { hs with message := fun hm => ⟨(hs.message hm).1, trivial⟩ }
  exact { hs' with message := fun hm => ⟨(hs'.message hm).1, hpassed _ hm⟩ }

/-- How a run has ended does not matter for what it has. -/
theorem Grows.running {r r' : Run ω} (h : Grows r r') :
    Grows { r with phase := .running } { r' with phase := .running } :=
  { h with failed := fun hfailed => absurd hfailed (not_failed rfl) }

variable [Weight ω] [DecidableEq ω] {c : Setting ω}

/-- Only the bottom is final. -/
theorem Complete.mem_final_iff (h : r.Complete c) {id : SolverId} {s : Solver ω}
    (hs : r.solver? id = some s) (e : State) : e ∈ s.calls.final ↔ e = s.bottom := by
  rw [(h.started hs).final]
  exact Automaton.mem_final_seeded ..

theorem Complete.exports_of_copiesOut (h : r.Complete c) {id requester : SolverId}
    (hq : r.Names id q) (hcopies : r.CopiesOut id requester e) :
    e = .bottom q.node ∨ r.Exports q requester e := by
  obtain ⟨s, hs, hout⟩ := hcopies
  obtain ⟨hseed, -⟩ := (h.ids hq).of_solver? hs
  rw [bottom, hseed] at hout
  exact hout.imp_right fun hcopy => ⟨id, hq, hcopy⟩

/-- What a solver sends at some time, the run has passed on when it has nothing left to do. -/
theorem Complete.passesOn_of_sends (h : r.Complete c) {r₁ : Run ω} (hgrows : Grows r₁ r)
    {id : SolverId} (hq : r₁.Names id q) {s : Solver ω} (hs : r₁.solver? id = some s)
    (hsound : s.Sound) (hsends : s.Sends c m) : r.PassesOn q m := by
  have hq' := hgrows.names hq
  cases hsends with
  | call hpoll hm =>
    obtain ⟨ht, -, topic, htopic, hlistens⟩ := delivered_of_poll? hsound.calls hpoll
    -- The rule is still there at the end, and has dealt with the transition by then.
    obtain ⟨s', hs', hgrown⟩ := hgrows.solvers hs
    obtain ⟨w, -, hmade⟩ :=
      (h.finished hs').call (hgrown.callRules hlistens) (hgrown.calls ht) htopic
    cases CallRule.yields_of_mem hm with
    | request hm =>
      cases hm with
      | storeContext =>
        obtain ⟨hcopies, -⟩ := h.handled hs' (hmade _ mem_cons_self)
        exact h.exports_of_copiesOut hq' hcopies
      | copied =>
        obtain ⟨hsource, htarget, -⟩ := h.handled hs' (hmade _ mem_cons_self)
        exact ⟨⟨id, hq', s', hs', hgrown.calls ht⟩, h.exports_of_copiesOut hq' hsource,
          h.exports_of_copiesOut hq' htarget⟩
  | field _ hm =>
    cases FieldRule.yields_of_mem hm with
    | request hm => cases hm <;> trivial
  | wanted | fieldWrite | unreachable => trivial

variable [ZeroFree ω]

/-- All copies that there are before a run has nothing left to do are backed by it. -/
theorem Complete.maintained_copying (h : r.Complete c) (hc : c.weighing.ZeroFree)
    (graph : CallGraph) : Maintained c fun r₁ =>
      Grows { r₁ with phase := .running } r → r₁.Within (.copying r graph) where
  clock hw _ _ hgrows := (hw { hgrows with }).clock
  refresh {r₁} ho hw id hgrows := by
    have hw₁ := hw ((ho.toKept.refreshSolver id).grows.running.trans hgrows)
    refine hw₁.modifySolver fun {q s} hq hs => within_copying_of_passesOn (hw₁.solver hq hs)
      (fun hs₁ => hs₁.refresh (Bound.closed_copying r _ q c _ s) (ho.kept hs).sound) fun m hm => ?_
    -- Nothing is sent when a solver catches up with the call graph.
    rw [Solver.outbox_refresh, ho.quiet hs] at hm
    cases hm
  serve {r₁} ho hw id s hs queue hgrows := by
    have hbefore := (ho.toKept.serveSolver hc hs queue).grows.running.trans hgrows
    have hw₁ := hw hbefore
    obtain ⟨q, hq⟩ := hw₁.named hs
    have hsound := (ho.kept hs).sound
    refine hw₁.serveSolver_of_passing hc ho.toKept hs (passing_copying c r graph) hq
      (within_copying_of_passesOn (hw₁.solver hq hs)
        (fun hs₁ => hs₁.serveQueue hc (Bound.closed_copying r _ q c _ s) hsound queue)
        fun m hm => ?_)
    rcases Solver.mem_outbox_serveQueue hm with hm | hsends
    · rw [ho.quiet hs] at hm
      cases hm
    · -- What is sent now was dealt with by the time the later run had nothing left to do.
      exact h.passesOn_of_sends hbefore hq hs hsound hsends

theorem Reachable.within_copying (hc : c.weighing.ZeroFree) (hr : r.Complete c) {r₁ : Run ω}
    (h : Reachable c r₁) : ∃ graph,
      Grows { r₁ with phase := .running } r → r₁.Within (.copying r graph) :=
  h.maintains hc (fun graph => hr.maintained_copying hc graph) fun graph _ _ =>
    within_begin ⟨c, graph⟩ (passing_copying c r graph) rfl (fun _ => trivial) trivial
      fun _ _ _ => trivial

section Converged

variable (hc : c.weighing.ZeroFree) (h : Reachable c r) (hconverged : r.phase = .converged)
  {id : SolverId} (hq : r.Names id q) {s : Solver ω} (hs : r.solver? id = some s)

include hc h hconverged hq hs

/-- What a solver has in the end keeps to the bound that the run is then. -/
theorem Reachable.solver_within_copying :
    s.Within (.copying r r.Names q (r.PassesOn q)) := by
  obtain ⟨graph, hw⟩ := h.within_copying hc (h.complete hc hconverged)
  have hgrows : Grows { r with phase := .running } r :=
    { Grows.refl r with failed := fun hfailed => absurd hfailed (not_failed rfl) }
  exact (hw hgrows).solver hq hs

/-- In the end, all states that are copies are backed. -/
theorem Reachable.backs_of_mem_states (he : e ∈ s.calls.states) :
    r.Backs r.Names q e := by
  have hcomplete := h.complete hc hconverged
  have hwithin := h.solver_within_copying hc hconverged hq hs
  cases h.everywhere hc (Solver.endures_tidy c)
    (fun _ _ _ => ((Automaton.tidy_empty.addFinal _).listen .all _).add _ _) hs e he with
  | initial hinitial =>
    obtain ⟨n, -, rfl⟩ :=
      ((h.everywhere hc (Solver.endures_marked c) (Solver.marked_start c) hs).calls e).1 hinitial
    exact backs_single n.var
  | final hfinal =>
    rw [(hcomplete.mem_final_iff hs e).1 hfinal]
    exact backs_bottom s.seed
  | source ht => exact (hwithin.call ht).source
  | target ht => exact (hwithin.call ht).target
  | listened hk hstate => exact hwithin.callRule hk e hstate

end Converged

end Run

end DemandAlias
