import DemandAlias.Proofs.Solver.Making

/-!
# Bounds of a solver

What a solver may ever have, for whatever reason: a *bound* says which transitions,
rules, messages and watchers are allowed. If the rules, nodes and crossings that are
allowed only lead to changes that are (`Bound.Closed`), then a solver within the bound
stays within it (`Within.serveQueue`, `Within.refresh`).
-/

namespace DemandAlias

/-- What a solver may have. -/
structure Bound (ω : Type) where
  call : CallTransition → Prop
  field : FieldTransition → Prop
  callRule : Topic State Statement → CallRule ω → Prop
  fieldRule : Topic State Field → FieldRule → Prop
  message : Message → Prop
  watcher : Crossing → Node → Prop

namespace Bound

variable {ω : Type}

/-- The bound allows what the change adds. -/
def Allows (b : Bound ω) : Change ω → Prop
  | .call t _ => b.call t
  | .field t => b.field t
  | .callRule topic rule => b.callRule topic rule
  | .fieldRule topic rule => b.fieldRule topic rule
  | .reachByCalls _ | .reachByFields _ => True
  | .message m => b.message m
  | .callRequest _ topic r => b.callRule topic (.request r)
  | .fieldRequest _ topic r => b.fieldRule topic (.request r)
  | .unwind state label target frames =>
    b.callRule (.outBy state label) (.unwind target frames)

/-- What is allowed only leads to what is allowed, for solvers with the direction and
    the seed of `s`. -/
structure Closed [Weight ω] (b : Bound ω) (c : Setting ω) (g : CallGraph) (s : Solver ω) :
    Prop where
  callRules : ∀ {topic rule t}, b.callRule topic rule → topic ∈ t.topics → b.call t →
    ∀ w, ∀ x ∈ rule.changes c s.bottom t w, b.Allows x
  fieldRules : ∀ {topic rule t}, b.fieldRule topic rule → topic ∈ t.topics → b.field t →
    ∀ x ∈ rule.changes t, b.Allows x
  nodes : ∀ {n q l p}, b.call (callAt n q) → b.field (fieldAt n l p) →
    c.scope.excludes n.stmt.method = false → ∀ x ∈ s.nodeChanges c.program n, b.Allows x
  crossings : ∀ {n q l p}, b.call (callAt n q) → b.field (fieldAt n l p) →
    c.scope.excludes n.stmt.method = false → ∀ x ∈ (s.flowAt c.program n).crossings, b.watcher x n
  edges : ∀ {x n e}, b.watcher x n → e ∈ x.edges g → ∀ y ∈ x.changes c s.direction n e, b.Allows y
  wanted : ∀ {x n}, b.watcher x n → b.message (.wanted x)
  unreachable : ∀ {n q l p}, b.call (callAt n q) → b.field (fieldAt n l p) →
    c.options.checkUnreachable = true → c.program.isUnreachable n.stmt.method = true →
      b.message (.unreachable n)

theorem Closed.grows [Weight ω] {b : Bound ω} {c : Setting ω} {g : CallGraph} {s s' : Solver ω}
    (hb : b.Closed c g s) (h : Solver.Grows s s') : b.Closed c g s' where
  callRules := h.bottom ▸ hb.callRules
  fieldRules := hb.fieldRules
  nodes := by
    simp only [Solver.nodeChanges, Solver.flowAt_of_grows h]
    exact hb.nodes
  crossings := by
    simp only [Solver.flowAt_of_grows h]
    exact hb.crossings
  edges := h.direction ▸ hb.edges
  wanted := hb.wanted
  unreachable := hb.unreachable

end Bound

namespace Solver

variable {ω : Type}

/-- All a solver has is allowed. -/
structure Within (b : Bound ω) (s : Solver ω) : Prop where
  call : ∀ {t}, t ∈ s.calls.transitions → b.call t
  field : ∀ {t}, t ∈ s.fields.transitions → b.field t
  callRule : ∀ {topic rule}, s.calls.Listens topic rule → b.callRule topic rule
  fieldRule : ∀ {topic rule}, s.fields.Listens topic rule → b.fieldRule topic rule
  message : ∀ {m}, m ∈ s.outbox → b.message m
  watcher : ∀ {x n}, n ∈ s.watches.nodes x → b.watcher x n

/-- A solver at its start is within a bound that allows its seed. -/
theorem within_start [Weight ω] [DecidableEq ω] {b : Bound ω} (id : SolverId)
    (direction : Direction) {seed : Node} (hcall : b.call (callAt seed (.bottom seed)))
    (hfield : b.field (fieldAt seed .epsilon (.bottom seed))) (hcallRule : b.callRule .all .reach)
    (hfieldRule : b.fieldRule .all .reach) : (start id direction seed).Within b where
  call ht := ((mem_transitions_seeded ..).1 ht).1 ▸ hcall
  field ht := ((mem_transitions_seeded ..).1 ht).1 ▸ hfield
  callRule hk := by
    obtain ⟨rfl, rfl⟩ := (Automaton.listens_seeded ..).1 hk
    exact hcallRule
  fieldRule hk := by
    obtain ⟨rfl, rfl⟩ := (Automaton.listens_seeded ..).1 hk
    exact hfieldRule
  message hm := nomatch hm
  watcher hn := absurd hn (Watches.not_mem_nodes_empty _ _)

/-! ### Changes -/

section Make

variable {b : Bound ω} {s : Solver ω}

theorem Within.onCalls (h : s.Within b) {topic : Topic State Statement} {rule : CallRule ω}
    (hrule : b.callRule topic rule) : (s.onCalls topic rule).Within b :=
  { h with
    call := fun ht => h.call (by rwa [Solver.onCalls, Automaton.transitions_listen] at ht)
    callRule := fun hk => ((Automaton.listens_listen ..).1 hk).elim h.callRule
      fun ⟨ht, hr⟩ => ht ▸ hr ▸ hrule }

theorem Within.onFields (h : s.Within b) {topic : Topic State Field} {rule : FieldRule}
    (hrule : b.fieldRule topic rule) : (s.onFields topic rule).Within b :=
  { h with
    field := fun ht => h.field (by rwa [Solver.onFields, Automaton.transitions_listen] at ht)
    fieldRule := fun hk => ((Automaton.listens_listen ..).1 hk).elim h.fieldRule
      fun ⟨ht, hr⟩ => ht ▸ hr ▸ hrule }

theorem Within.reach (h : s.Within b) (n : Node) : (s.reach n).Within b := by
  obtain ⟨reached, pending, heq, -⟩ := reach_eq s n
  rw [heq]
  exact { h with }

variable [Weight ω] [DecidableEq ω]

theorem Within.make (hs : s.Sound) (h : s.Within b) {x : Change ω} (hx : b.Allows x) :
    (s.make x).Within b := by
  cases x with
  | call =>
    exact
      { h with
        call := fun ht => ((Automaton.mem_transitions_add hs.calls ..).1 ht).elim h.call
          fun ⟨ht, _⟩ => ht ▸ hx
        callRule := fun hk => h.callRule ((Automaton.listens_add ..).1 hk) }
  | field =>
    exact
      { h with
        field := fun ht => ((Automaton.mem_transitions_add hs.fields ..).1 ht).elim h.field
          fun ⟨ht, _⟩ => ht ▸ hx
        fieldRule := fun hk => h.fieldRule ((Automaton.listens_add ..).1 hk) }
  | callRule => exact h.onCalls hx
  | fieldRule => exact h.onFields hx
  | reachByCalls n | reachByFields n =>
    simp only [Solver.make, reachByCalls, reachByFields]
    split
    · exact h
    · refine Within.reach ?_ n
      exact { h with }
  | message =>
    exact { h with message := fun hm => (mem_cons.1 hm).elim (fun hm => hm ▸ hx) h.message }
  | fieldRequest =>
    simp only [Solver.make, requestFields]
    split
    · exact h
    · refine Within.onFields ?_ hx
      exact { h with }
  | callRequest | unwind =>
    simp only [Solver.make, requestCalls, Solver.unwind]
    split
    · exact h
    · refine Within.onCalls ?_ hx
      exact { h with }

theorem Within.makeAll [ZeroFree ω] (hs : s.Sound) (h : s.Within b) {xs : List (Change ω)}
    (hproper : ∀ x ∈ xs, s.Proper x) (hxs : ∀ x ∈ xs, b.Allows x) : (s.makeAll xs).Within b := by
  induction xs generalizing s with
  | nil => exact h
  | cons x _ ih =>
    have hx := performs_make hs (hproper x mem_cons_self)
    exact ih hx.sound (h.make hs (hxs x mem_cons_self))
      (fun y hy => (hproper y (mem_cons_of_mem _ hy)).grows hx.extension.toGrows)
      fun y hy => hxs y (mem_cons_of_mem _ hy)

end Make

/-! ### Steps -/

variable [Weight ω] [DecidableEq ω] [ZeroFree ω] {b : Bound ω} {c : Setting ω} {g : CallGraph}
  {s s' : Solver ω}

theorem Within.explores {xs : List (Change ω)} {W : Crossing → Node → Prop}
    (he : Explores c g xs W s s') (hb : b.Closed c g s) (hs : s.Sound) (h : s.Within b)
    (hproper : ∀ x ∈ xs, ∀ s' : Solver ω, s'.Proper x) (hxs : ∀ x ∈ xs, b.Allows x)
    (hW : ∀ {x n}, W x n → b.watcher x n) : s'.Sound ∧ s'.Within b := by
  induction he with
  | refl => exact ⟨hs, h⟩
  | @make s' _ x hx ih =>
    have hx' : s'.Proper x ∧ b.Allows x := by
      cases hx with
      | node hx => exact ⟨hproper x hx s', hxs x hx⟩
      | want hn => exact ⟨trivial, hb.wanted (hW hn)⟩
      | cross hn he hy =>
        exact ⟨(plain_crossingChanges c _ _ _ _ x hy).proper s', hb.edges (hW hn) he x hy⟩
    exact ⟨(performs_make ih.1 hx'.1).sound, ih.2.make ih.1 hx'.2⟩
  | note _ hnew ih => exact ⟨ih.1.note, { ih.2 with watcher := fun hn => hW (hnew hn) }⟩

section

variable (hc : c.weighing.ZeroFree) (hb : b.Closed c g s) (hs : s.Sound) (h : s.Within b)
include hb hs h

/-- Catching up with the call graph stays within a closed bound. -/
theorem Within.refresh : (s.refresh c g).Within b := by
  rcases explores_refresh c g s with ⟨-, heq⟩ | ⟨-, he⟩
  · rwa [heq]
  · have hgrows : Grows s { s with edgesSeen := g.size } := { Grows.refl s with }
    exact (explores he (hb.grows hgrows) hs.note { h with } (fun _ hx => nomatch hx)
      (fun _ hx => nomatch hx) h.watcher).2

theorem Within.process {n : Node} (hn : n ∈ s.reached) : (s.process c g n).Within b := by
  obtain ⟨⟨q, hq⟩, ⟨l, p, hp⟩⟩ := And.imp hs.callReached hs.fieldReached ((hs.reached n).1 hn)
  rcases explores_process c g s n with ⟨hreported, heq⟩ | ⟨-, visited, -, heq | ⟨hincluded, he⟩⟩
  · obtain ⟨hcheck, hmethod⟩ := Bool.and_eq_true_iff.1 hreported
    rw [heq]
    exact h.make hs (hb.unreachable (h.call hq) (h.field hp) hcheck hmethod)
  · rw [heq]
    exact { h with }
  · have hgrows : Grows s { s with visited } := { Grows.refl s with }
    refine (explores he (hb.grows hgrows) hs.note { h with } ?_
      (hb.nodes (h.call hq) (h.field hp) hincluded) ?_).2
    · exact forall_nodeChanges (fun m _ x hx s => proper_moveChanges s n m x hx)
        (fun _ _ _ => trivial) fun _ _ _ => trivial
    · rintro x m (hm | ⟨rfl, hx⟩)
      · exact h.watcher hm
      · exact hb.crossings (h.call hq) (h.field hp) hincluded x hx

include hc in
/-- Serving a queue stays within a closed bound. -/
theorem Within.serveQueue (queue : WorkQueue) : (s.serveQueue c g queue).Within b := by
  rcases serveQueue_cases c g s queue with
    heq | ⟨d, calls, hpoll, heq⟩ | ⟨d, fields, hpoll, heq⟩ | ⟨n, pending, hpop, heq⟩
  · rw [heq]
    exact { h with }
  · obtain ⟨hmem, hw, topic, htopic, hk⟩ := delivered_of_poll? hs.calls hpoll
    have ht := takes_calls hs hpoll
    obtain ⟨events, rfl, -, -⟩ := poll?_eq_some hpoll
    rw [heq]
    exact Within.makeAll ht.sound.note { h with }
      (fun x hx => (proper_callRuleChanges hc hs hk hmem hw s.bottom x hx).grows
        { Grows.refl s with })
      (hb.callRules (h.callRule hk) htopic (h.call hmem) d.weight)
  · obtain ⟨hmem, -, topic, htopic, hk⟩ := delivered_of_poll? hs.fields hpoll
    have ht := takes_fields hs hpoll
    obtain ⟨events, rfl, -, -⟩ := poll?_eq_some hpoll
    rw [heq]
    exact Within.makeAll ht.sound.note { h with }
      (fun x hx => (proper_fieldRuleChanges hmem x hx).grows { Grows.refl s with })
      (hb.fieldRules (h.fieldRule hk) htopic (h.field hmem))
  · have hn : n ∈ s.pending.toList := by
      rw [Queue.toList_of_pop?_eq_some hpop]
      exact mem_cons_self
    have hgrows : Grows s { s with pending, last := queue } := { Grows.refl s with }
    rw [heq]
    exact Within.process (hb.grows hgrows) (takes_pending hs hpop).sound.note { h with }
      (hs.pending hn)

end

end Solver

end DemandAlias
