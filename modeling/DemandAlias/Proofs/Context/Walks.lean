import DemandAlias.Proofs.Context.Exactness
import DemandAlias.Proofs.Solver.Hearing
import DemandAlias.Proofs.Trail

/-!
# Walks of the pushdown system

A *walk* is a run of the pushdown system of `DemandAlias.Proofs.Context.Pushdown` with the
hops it makes, from node to node.

* `Walk.exists_accounts`: once a solver has finished, the weight of a node takes into account
  every walk that comes to it, if the weights of moves take these into account;
* `exists_walk_of_nodeWeights`: the nodes of a trail are those of a walk.

The first goes along the walk and uses that rules know the latest weights. The second is an
invariant of the solver: the nodes of each weight in the automaton of calls are those of the
walks that the transition stands for (`Recording`).
-/

namespace DemandAlias

variable {s : Solver Trail} {y : Configuration} {hops : List (Node × Node)}

/-- The weights of moves take the moves into account. -/
structure Weighing.Follows {ω : Type} [Weight ω] (w : Weighing ω)
    (accounts : ω → List (Node × Node) → Prop) : Prop extends Weight.Accounting accounts where
  step : ∀ source target, accounts (w.step source target) [(source, target)]
  enter : ∀ source target, accounts (w.enter source target) [(source, target)]
  leave : ∀ source target, accounts (w.leave source target) [(source, target)]

namespace Pushdown

open Solver

/-- The second configuration is come to from the first one by the given hops. -/
inductive Walk (p : Program) (g : CallGraph) (seed : Node) :
    Configuration → List (Node × Node) → Configuration → Prop
  | refl (x : Configuration) : Walk p g seed x [] x
  | tail {x y z : Configuration} {hops : List (Node × Node)} (h : Walk p g seed x hops y)
      (hstep : Step p g seed y z) : Walk p g seed x (hops ++ [(y.node, z.node)]) z

variable {p : Program} {g : CallGraph} {seed : Node}

theorem Walk.trans {x z : Configuration} {hops' : List (Node × Node)} (h : Walk p g seed x hops y)
    (h' : Walk p g seed y hops' z) : Walk p g seed x (hops ++ hops') z := by
  induction h' with
  | refl => rwa [List.append_nil]
  | tail _ hstep ih =>
    rw [← append_assoc]
    exact ih.tail hstep

/-- A hop goes where a move leads. -/
theorem Walk.exists_leads {x : Configuration} (h : Walk p g seed x hops y) {n m : Node}
    (hm : (n, m) ∈ hops) : ∃ move, Leads p g seed n move ∧ move.target = m := by
  induction h with
  | refl => cases hm
  | tail _ hstep ih =>
    rcases mem_append.1 hm with hm | hm
    · exact ih hm
    · cases mem_singleton.1 hm
      cases hstep with
      | within h | enter h | leave h | leaveFirst h => exact ⟨_, h, rfl⟩

/-! ### Walks are taken into account -/

section Accounts

variable {ω : Type} [Weight ω] {accounts : ω → List (Node × Node) → Prop} {s : Solver ω}
variable {x : Configuration} {hops : List (Node × Node)}

/-- The stack is spelled by transitions from the state to the bottom, and their weights take
    into account what happened until the innermost call. -/
inductive Framed (s : Solver ω) (accounts : ω → List (Node × Node) → Prop) :
    State → List Statement → List (Node × Node) → Prop
  | nil : Framed s accounts s.bottom [] []
  | cons {q q' : State} {site : Statement} {stack : List Statement} {es fs : List (Node × Node)}
      {v : ω} (hv : s.calls.weight? ⟨q, site, q'⟩ = some v) (hfs : accounts v fs)
      (h : Framed s accounts q' stack es) : Framed s accounts q (site :: stack) (es ++ fs)

theorem Framed.exists_way (hc : s.calls.Consistent) (hfinal : s.bottom ∈ s.calls.final) {q : State}
    {stack : List Statement} {es : List (Node × Node)} (h : Framed s accounts q stack es) :
    ∃ qs, s.calls.Way accounts q qs es := by
  induction h with
  | nil => exact ⟨[], .final hfinal⟩
  | @cons q q' site _ _ fs _ hv _ _ ih =>
    obtain ⟨qs, hqs⟩ := ih
    have ht : ⟨q, site, q'⟩ ∈ s.calls.transitions := (hc.mem_transitions_iff _).2 (by rw [hv]; rfl)
    have hw : accounts (s.calls.weight ⟨q, site, q'⟩) fs := by rwa [Automaton.weight, hv]
    exact ⟨_, .step ht hw hqs⟩

/-- The solver has the node with a state that spells the stack, and the weights take the hops
    into account. -/
def Followed (s : Solver ω) (accounts : ω → List (Node × Node) → Prop) (x : Configuration)
    (hops : List (Node × Node)) : Prop :=
  ∃ q v es fs, s.calls.weight? (callAt x.node q) = some v ∧ accounts v fs ∧
    Framed s accounts q x.stack es ∧ hops = es ++ fs

variable {c : Setting ω} {sent : Message → Prop} {g' : CallGraph}

/-- A step from what is found is taken into account. -/
theorem Followed.step (ha : c.weighing.Follows accounts) (hfinished : Run.Finished c g sent s)
    (hheard : s.Heard c) (hidle : s.calls.hasEvents = false) (hdirection : s.direction = .forward)
    (hscope : c.scope = .everything) (hwithin : s.Within (stacked c.program g' s.seed))
    (hfound : Found s x) (h : Followed s accounts x hops) (hstep : Step c.program g s.seed x y) :
    Followed s accounts y (hops ++ [(x.node, y.node)]) := by
  have hreached : x.node ∈ s.reached := by
    obtain ⟨q, hq, -, hfield⟩ := hfound
    exact (hfinished.reached_iff _).2 ⟨⟨q, hq⟩, _, _, hfield⟩
  have hrule : ∀ {m}, Leads c.program g s.seed x.node m →
      s.calls.Listens (.outBy (.single x.node.var) x.node.stmt) (m.callRule x.node) := fun hm =>
    hfinished.made_of_successor hreached (by rw [hscope]; rfl)
      (successor_of_leads hdirection hscope hm) _ mem_cons_self
  have htold : ∀ {topic rule t v}, s.calls.Listens topic rule → s.calls.weight? t = some v →
      topic ∈ t.topics → ∀ z ∈ rule.changes c s.bottom t v, s.Holds z :=
    fun hk hv htopic => hheard.current.done_of_idle hidle hk hv htopic
  obtain ⟨q, v, es, fs, hv, hfs, hframed, rfl⟩ := h
  have hmoves := fun {m} hm => htold (hrule (m := m) hm) hv (Transition.outBy_mem_topics _)
  rw [append_assoc]
  cases hstep with
  | within hm =>
    obtain ⟨v', hv', hincludes⟩ := hmoves hm _ mem_cons_self
    exact ⟨q, v', es, _, hv', hincludes.accounts ha.toAccounting (ha.extend hfs (ha.step _ _)),
      hframed, rfl⟩
  | enter hm =>
    -- The frame takes over what happened up to the call, and the method starts anew.
    obtain ⟨v', hv', hincludes⟩ := hmoves hm _ mem_cons_self
    obtain ⟨v'', hv'', hincludes'⟩ := hmoves hm _ (mem_cons_of_mem _ mem_cons_self)
    exact ⟨_, v', es ++ fs, _, hv', hincludes.accounts ha.toAccounting (ha.enter _ _),
      .cons hv'' (hincludes'.accounts ha.toAccounting hfs) hframed, (append_assoc ..).symm⟩
  | @leave n m site _ hm =>
    -- The return waits for the frame of the innermost call, which goes on with both weights.
    cases hframed with
    | @cons _ q' _ _ es' fs' u hu hfs' hrest =>
      have hne : q ≠ s.bottom := fun hbottom => bottom_not_source hwithin
        ((hfinished.sound.calls.mem_transitions_iff ⟨s.bottom, site, q'⟩).2
          (by rw [← hbottom, hu]; rfl))
      have hpop := hmoves hm
      simp only [Move.callRule, CallRule.changes, show (callAt n q).target = q from rfl, hne,
        if_false] at hpop
      have hmatch := htold (hpop _ mem_cons_self) hu (Transition.outBy_mem_topics _)
      obtain ⟨v', hv', hincludes⟩ := hmatch _ mem_cons_self
      refine ⟨q', v', es', fs' ++ (fs ++ [(n, m)]), hv', ?_, hrest, by simp⟩
      exact hincludes.accounts ha.toAccounting (ha.extend hfs' (ha.extend hfs (ha.leave n m)))
  | @leaveFirst n m _ hm =>
    cases hframed with
    | nil =>
      have hpop := hmoves hm
      simp only [Move.callRule, CallRule.changes, show (callAt n s.bottom).target = s.bottom from rfl,
        if_true] at hpop
      obtain ⟨v', hv', hincludes⟩ := hpop _ mem_cons_self
      exact ⟨s.bottom, v', [], _, hv',
        hincludes.accounts ha.toAccounting (ha.extend hfs (ha.leave n m)), .nil, rfl⟩

/-- What a walk comes to is found. -/
theorem Walk.found (hfinished : Run.Finished c g sent s) (hdirection : s.direction = .forward)
    (hscope : c.scope = .everything) (hwithin : s.Within (stacked c.program g' s.seed))
    (h : Walk c.program g s.seed x hops y) (hx : Found s x) : Found s y := by
  induction h with
  | refl => exact hx
  | tail _ hstep ih => exact ih.step hfinished hdirection hscope hwithin hstep

/-- The weight of a node takes every walk to it into account. -/
theorem Walk.exists_accounts [DecidableEq ω] [ZeroFree ω] [ZeroCombine ω]
    (ha : c.weighing.Follows accounts) (hfinished : Run.Finished c g sent s) (hheard : s.Heard c)
    (hidle : s.calls.hasEvents = false) (hdirection : s.direction = .forward)
    (hscope : c.scope = .everything) (hwithin : s.Within (stacked c.program g' s.seed))
    (hfinal : s.bottom ∈ s.calls.final) (hfirst : Found s ⟨s.seed, []⟩)
    (h : Walk c.program g s.seed ⟨s.seed, []⟩ hops x) :
    ∃ w, s.nodeWeights[x.node]? = some w ∧ accounts w hops := by
  have hfollowed : Followed s accounts x hops := by
    induction h with
    | refl =>
      obtain ⟨v, hv, hincludes⟩ := hheard.first
      exact ⟨s.bottom, v, [], [], hv, hincludes.accounts ha.toAccounting ha.one, .nil, rfl⟩
    | tail h hstep ih =>
      exact ih.step ha hfinished hheard hidle hdirection hscope hwithin
        (h.found hfinished hdirection hscope hwithin hfirst) hstep
  obtain ⟨q', hq', -, hfield⟩ := h.found hfinished hdirection hscope hwithin hfirst
  obtain ⟨q, v, es, fs, hv, hfs, hframed, rfl⟩ := hfollowed
  obtain ⟨qs, hway⟩ := hframed.exists_way hfinished.sound.calls hfinal
  refine accounts_nodeWeights ha.toAccounting hfinished.sound.calls _
    ((hfinished.reached_iff _).2 ⟨⟨q', hq'⟩, _, _, hfield⟩)
    ((hfinished.sound.calls.mem_transitions_iff _).2 (by rw [hv]; rfl)) ?_ hway
  rwa [Automaton.weight, hv]

end Accounts

/-! ### The nodes of a trail are those of a walk -/

section Recording

variable (p g seed)
variable {n : Node} {q : State} {nodes : List Node}

/-- The nodes are those of a walk that the transition from `n` to `q` stands for. -/
def Recorded (n : Node) (q : State) (nodes : List Node) : Prop :=
  (q = .bottom seed ∧ ∃ hops, Walk p g seed ⟨seed, []⟩ hops ⟨n, []⟩ ∧ nodes = hops.map Prod.snd) ∨
    ∃ e hops, q = frameOf e ∧ (∀ stack, Walk p g seed ⟨e, stack⟩ hops ⟨n, stack⟩) ∧
      nodes = e :: hops.map Prod.snd

/-- The nodes are those of a walk that the transition stands for: to a node, or to a call. -/
def Records (t : CallTransition) (nodes : List Node) : Prop :=
  (∃ n q, t = callAt n q ∧ Recorded p g seed n q nodes) ∨
    ∃ e site q n, t = ⟨frameOf e, site, q⟩ ∧ Recorded p g seed n q nodes ∧
      Leads p g seed n (.push e (.call site))

/-- The nodes are those of a walk into a method and out of it again, by the call that the rules
    of the topic are about. -/
def RecordsReturn (topic : Topic State Statement) (m : Node) (nodes : List Node) : Prop :=
  ∃ e site hops, topic = .outBy (frameOf e) site ∧
    (∀ stack, Walk p g seed ⟨e, site :: stack⟩ hops ⟨m, stack⟩) ∧ nodes = e :: hops.map Prod.snd

/-- The nodes of all weights are those of walks. -/
structure Recording (s : Solver Trail) : Prop where
  call : ∀ {t w}, s.calls.weight? t = some w → Records p g seed t w.nodes
  popMatch : ∀ {topic m w}, s.calls.Listens topic (.popMatch m w) →
    RecordsReturn p g seed topic m w.nodes

/-- The nodes of the weight that the change brings in are those of a walk. -/
def RecordsChange : Change Trail → Prop
  | .call t w => Records p g seed t w.nodes
  | .callRule topic (.popMatch m w) => RecordsReturn p g seed topic m w.nodes
  | _ => True

variable {p g seed}

theorem Recorded.step {m : Node} (h : Recorded p g seed n q nodes)
    (hm : ∀ stack, Step p g seed ⟨n, stack⟩ ⟨m, stack⟩) : Recorded p g seed m q (nodes ++ [m]) := by
  rcases h with ⟨rfl, hops, hwalk, rfl⟩ | ⟨e, hops, rfl, hwalk, rfl⟩
  · exact .inl ⟨rfl, _, hwalk.tail (hm []), by simp⟩
  · exact .inr ⟨e, hops ++ [(n, m)], rfl, fun stack => (hwalk stack).tail (hm stack), by simp⟩

/-- A return goes on where the call was made. -/
theorem Recorded.return {e m : Node} {site : Statement} (h : Recorded p g seed n q nodes)
    (hpush : Leads p g seed n (.push e (.call site)))
    (hm : ∀ stack, Walk p g seed ⟨e, site :: stack⟩ hops ⟨m, stack⟩) :
    Recorded p g seed m q (nodes ++ e :: hops.map Prod.snd) := by
  rcases h with ⟨rfl, hops', hwalk, rfl⟩ | ⟨e', hops', rfl, hwalk, rfl⟩
  · exact .inl ⟨rfl, _, (hwalk.tail (.enter hpush)).trans (hm []), by simp⟩
  · exact .inr ⟨e', hops' ++ [(n, e)] ++ hops, rfl,
      fun stack => ((hwalk stack).tail (.enter hpush)).trans (hm stack), by simp⟩

theorem recorded_of_records (h : Records p g seed (callAt n q) nodes) :
    Recorded p g seed n q nodes := by
  rcases h with ⟨n', q', heq, hn⟩ | ⟨e, site, q', n', heq, -⟩
  · obtain ⟨stmt, var⟩ := n
    cases heq
    exact hn
  · cases heq

theorem exists_recorded_of_records {e : Node} {site : Statement}
    (h : Records p g seed ⟨frameOf e, site, q⟩ nodes) :
    ∃ n, Recorded p g seed n q nodes ∧ Leads p g seed n (.push e (.call site)) := by
  rcases h with ⟨n', q', heq, -⟩ | ⟨e', site', q', n, heq, hn, hpush⟩
  · cases heq
  · simp only [Transition.mk.injEq] at heq
    obtain ⟨he, rfl, rfl⟩ := heq
    exact ⟨n, hn, frameOf_inj he ▸ hpush⟩

theorem Records.combine {t : CallTransition} {v w : Trail} (hv : Records p g seed t v.nodes)
    (hw : Records p g seed t w.nodes) : Records p g seed t (combine v w).nodes := by
  rcases Trail.nodes_combine v w with heq | heq
  · exact heq ▸ hv
  · exact heq ▸ hw

theorem Recording.make (h : Recording p g seed s) {x : Change Trail}
    (hx : RecordsChange p g seed x) : Recording p g seed (s.make x) where
  call hw := by
    rcases weight?_make_cases hw with hw | ⟨w, rfl, -, rfl | ⟨old, hold, rfl⟩⟩
    · exact h.call hw
    · exact hx
    · exact (h.call hold).combine hx
  popMatch hk := by
    rcases listens_make_cases hk with hk | hk
    · exact h.popMatch hk
    · cases hk
      exact hx

theorem Recording.makeAll (h : Recording p g seed s) {xs : List (Change Trail)}
    (hxs : ∀ x ∈ xs, RecordsChange p g seed x) : Recording p g seed (s.makeAll xs) :=
  holds_makeAll_of (fun h hx => h.make hx) hxs h

/-- What a rule of a move brings in is recorded. -/
theorem records_moveRule {c : Setting Trail} (hweighing : c.weighing = .trail) {m : Move}
    (hm : Leads p g seed n m) (hcall : IsCallMove m) {w : Trail} (hw : w ≠ .zero)
    (hq : Recorded p g seed n q w.nodes) :
    ∀ x ∈ (m.callRule n).changes c (.bottom seed) (callAt n q) w, RecordsChange p g seed x := by
  intro x hx
  match m, hcall with
  | .step m, _ =>
    rw [mem_singleton.1 hx, hweighing]
    refine .inl ⟨m, q, rfl, ?_⟩
    rw [Trail.nodes_extend hw (zeroFree_trail.step n m), Trail.nodes_step]
    exact hq.step fun _ => .within hm
  | .push m (.call site), _ =>
    rcases mem_cons.1 hx with rfl | hx
    · rw [hweighing]
      exact .inl ⟨m, frameOf m, rfl, .inr ⟨m, [], rfl, fun _ => .refl _, rfl⟩⟩
    · rw [mem_singleton.1 hx]
      exact .inr ⟨m, site, q, n, rfl, hq, hm⟩
  | .pop m (.call site), _ =>
    have hnodes : (extend w (Weighing.trail.leave n m)).nodes = w.nodes ++ [m] :=
      Trail.nodes_extend hw (zeroFree_trail.leave n m)
    simp only [Move.callRule, CallRule.changes, hweighing] at hx
    have htop : (callAt n q).target = q := rfl
    rcases hq with ⟨rfl, hops, hwalk, heq⟩ | ⟨e, hops, rfl, hwalk, heq⟩
    · rw [if_pos htop, mem_singleton] at hx
      rw [hx]
      refine .inl ⟨m, _, rfl, .inl ⟨rfl, _, hwalk.tail (.leaveFirst hm), ?_⟩⟩
      rw [hnodes, heq]
      simp
    · rw [if_neg (htop ▸ frameOf_ne_bottom e seed), mem_singleton] at hx
      rw [hx]
      refine ⟨e, site, hops ++ [(n, m)], rfl,
        fun stack => (hwalk (site :: stack)).tail (.leave hm), ?_⟩
      rw [hnodes, heq]
      simp

theorem Recording.weight (h : Recording p g seed s) (hs : s.Sound) {t : CallTransition}
    (ht : t ∈ s.calls.transitions) :
    Records p g seed t (s.calls.weight t).nodes :=
  h.call (hs.calls.weight?_eq_weight ht)

/-- The nodes of all weights are those of walks, whatever the solver of a forward query does. -/
theorem persists_recording {c : Setting Trail} (hweighing : c.weighing = .trail) :
    Persists c (fun s => s.Sound ∧ s.direction = .forward ∧ s.seed = seed ∧
      s.Within (stacked p g seed)) (Recording p g seed) where
  note h _ _ _ _ _ _ := ⟨h.call, h.popMatch⟩
  make {s x} h hx := h.make (by
    cases x with
    | call => exact hx.elim
    | callRule _ rule =>
      cases rule with
      | popMatch => exact hx.elim
      | _ => trivial
    | _ => trivial)
  fields h _ := ⟨h.call, h.popMatch⟩
  calls {s d calls} := by
    rintro ⟨hs, -, hseed, hwithin⟩ h hpoll last
    obtain ⟨hmem, hw, topic, htopic, hk⟩ := delivered_of_poll? hs.calls hpoll
    have hbottom : s.bottom = .bottom seed := by rw [bottom, hseed]
    obtain ⟨events, rfl, -, hweight⟩ := poll?_eq_some hpoll
    have hrecords : Records p g seed d.transition d.weight.nodes := by
      rw [hweight]
      exact h.weight hs hmem
    have hpolled : Recording p g seed { s with calls := { s.calls with events }, last } :=
      ⟨h.call, h.popMatch⟩
    refine hpolled.makeAll ?_
    rw [hbottom]
    -- What the rule does depends on which of the rules of the bound it is.
    generalize d.transition = t at *
    rcases hwithin.callRule hk with hrule | ⟨n, m, rfl, hrule, hm, hcall, -⟩ |
      ⟨e, site, m, w', rfl, hrule, -⟩
    · rw [hrule]
      intro x hx
      cases CallRule.yields_of_mem hx
      trivial
    · obtain ⟨q, rfl⟩ := exists_eq_callAt htopic
      rw [hrule]
      exact records_moveRule hweighing hm hcall hw (recorded_of_records hrecords)
    · rw [hrule] at hk ⊢
      obtain ⟨source, label, q⟩ := t
      obtain ⟨rfl, rfl⟩ := eq_of_outBy_mem_topics htopic
      obtain ⟨e', site', hops, htopic', hwalk, hnodes⟩ := h.popMatch hk
      obtain ⟨he, rfl⟩ := Topic.outBy.inj htopic'
      obtain rfl := frameOf_inj he
      obtain ⟨n, hn, hpush⟩ := exists_recorded_of_records hrecords
      intro x hx
      rw [mem_singleton.1 hx]
      refine .inl ⟨m, q, rfl, ?_⟩
      rw [Trail.nodes_extend hw (hs.popMatch hk), hnodes]
      exact hn.return hpush hwalk

theorem recording_start (id : SolverId) (direction : Direction) :
    Recording p g seed (.start id direction seed) where
  call {t w} hw := by
    obtain ⟨rfl, rfl⟩ := Automaton.eq_of_weight?_seeded hw
    exact .inl ⟨seed, _, rfl, .inl ⟨rfl, [], .refl _, rfl⟩⟩
  popMatch hk := by
    cases ((Automaton.listens_seeded ..).1 hk).2

variable (p g seed) in
/-- The nodes of the weight lead up to what the state stands for: with those of a transition to
    it they are those of a walk. -/
def LeadsUp (q : State) (w : Trail) : Prop :=
  w ≠ .zero ∧ ∀ n nodes, Recorded p g seed n q nodes → ∃ stack hops,
    Walk p g seed ⟨seed, []⟩ hops ⟨n, stack⟩ ∧ w.nodes ++ nodes = hops.map Prod.snd

section

variable (h : Recording p g seed s) (hs : s.Sound) (hwithin : s.Within (stacked p g seed))
  (hfinal : ∀ q, q ∈ s.calls.final → q = .bottom seed)
include h hs hwithin hfinal

/-- The ways from a state to the bottom lead up to what the state stands for. -/
theorem leadsUp_waysToFinal : s.calls.waysToFinal.All (LeadsUp p g seed) := by
  refine Automaton.waysToFinal_cases _ ?_ ?_ ?_
  · intro q hq
    refine ⟨nofun, fun n nodes hn => ?_⟩
    obtain rfl := hfinal q hq
    rcases hn with ⟨-, hops, hwalk, rfl⟩ | ⟨e, _, heq, -⟩
    · exact ⟨[], hops, hwalk, rfl⟩
    · exact absurd heq.symm (frameOf_ne_bottom e seed)
  · rintro ⟨source, site, q⟩ w ht hw ⟨-, hfound⟩
    have hne := hs.calls.weight_ne_zero ht
    refine ⟨ZeroFree.extend_ne_zero hw hne, fun n nodes hn => ?_⟩
    rw [Trail.nodes_extend hw hne]
    -- No transition goes out of the bottom, so the state is a frame.
    rcases hn with ⟨rfl, hops, hwalk, rfl⟩ | ⟨e, hops, heq, hwalk, rfl⟩
    · rcases hwithin.call ht with ⟨_, _, heq, -⟩ | ⟨_, _, _, heq, -⟩ <;> cases heq
    · obtain rfl : source = frameOf e := heq
      obtain ⟨m, hm, hpush⟩ := exists_recorded_of_records (h.weight hs ht)
      obtain ⟨stack, hops', hwalk', hnodes⟩ := hfound m _ hm
      refine ⟨site :: stack, _, (hwalk'.tail (.enter hpush)).trans (hwalk (site :: stack)), ?_⟩
      rw [hnodes]
      simp
  · rintro q v w ⟨hv, hfound⟩ ⟨hw, hfound'⟩
    refine ⟨ZeroFree.combine_ne_zero hv, fun n nodes hn => ?_⟩
    rcases Trail.nodes_combine v w with heq | heq
    · exact heq ▸ hfound n nodes hn
    · exact heq ▸ hfound' n nodes hn

/-- The nodes of the weight of a node are those of a walk to it. -/
theorem exists_walk_of_nodeWeights {w : Trail} (hw : s.nodeWeights[n]? = some w) :
    ∃ stack hops, Walk p g seed ⟨seed, []⟩ hops ⟨n, stack⟩ ∧ w.nodes = hops.map Prod.snd := by
  refine nodeWeights_cases (fun n (w : Trail) => ∃ stack hops,
    Walk p g seed ⟨seed, []⟩ hops ⟨n, stack⟩ ∧ w.nodes = hops.map Prod.snd) hs.calls ?_ ?_ hw
  · intro n v w hv hw
    rcases Trail.nodes_combine v w with heq | heq
    · exact heq ▸ hv
    · exact heq ▸ hw
  · intro n q _ ht haccepts
    obtain ⟨hne, hfound⟩ := (leadsUp_waysToFinal h hs hwithin hfinal q).resolve_left fun hzero =>
      (Automaton.waysToFinal_eq_zero_iff hs.calls q).1 hzero haccepts
    rw [Trail.nodes_extend hne (hs.calls.weight_ne_zero ht)]
    exact hfound n _ (recorded_of_records (h.weight hs ht))

end

end Recording

end Pushdown

end DemandAlias
