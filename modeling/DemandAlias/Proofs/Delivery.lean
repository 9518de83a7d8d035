import DemandAlias.Proofs.Saturation

/-!
# No notification is lost

A store and a load of one field meet through three solvers: the one that asks, one that
looks for the objects a local holds, and those that follow these objects. They find the
store, the objects and the aliases in any order. When a run has converged, each pairing
of what was found is delivered, whatever came last.

* `Run.AliasesDelivered`: what is written to a field of an object is followed from every
  local that holds the object at the store;
* `Run.StoresDelivered`: what is read from a field of an object is looked for at every
  store to the field, in the calling contexts of the store, which are copied from the
  solver that follows the object.
-/

namespace DemandAlias.Run

variable {ω : Type}
variable {id follower : SolverId} {s s' : Solver ω} {field : Field} {r : Run ω}

/-! ### What is delivered -/

/-- A solver that follows a value to a store `base.field = var` continues from every other
    local that holds the object of `base`: it has the calling contexts of the store there,
    and the stacks of fields of the store below the field. -/
def AliasesDelivered (c : Setting ω) (r : Run ω) : Prop :=
  ∀ id s, r.solver? id = some s → s.direction = .forward →
    ∀ store base field, s.Processed store → c.scope.excludes store.stmt.method = false →
      store.stmt.action = .store base field store.var →
      ∃ finder, r.ids[Query.backward ⟨⟨store.stmt, base⟩⟩]? = some finder ∧
        ∀ q ∈ r.allocations.get finder, ∃ follower, r.ids[Query.forward q]? = some follower ∧
          ∃ s', r.solver? follower = some s' ∧
            ∀ y p, y ≠ base → fieldAt ⟨store.stmt, y⟩ .epsilon p ∈ s'.fields.transitions →
              ∀ t ∈ c.program.successors store.stmt, s.CarriesCalls store ⟨t, y⟩ ∧
                fieldAt ⟨t, y⟩ field (Solver.below ⟨t, y⟩ field) ∈ s.fields.transitions ∧
                ∀ l p, fieldAt store l p ∈ s.fields.transitions →
                  ⟨Solver.below ⟨t, y⟩ field, l, p⟩ ∈ s.fields.transitions

/-- The state of the solver `s` that stands for the calling context `q` of the solver `s'`
    of this number. -/
def importOf (s : Solver ω) (id : SolverId) (s' : Solver ω) (q : State) : State :=
  if q = s'.bottom then s.bottom else .generated q (.imported id)

/-- The calling contexts below `q`, `q` included. -/
inductive Context (s : Solver ω) (q : State) : State → Prop
  | refl : Context s q q
  | deeper {q₁ q₂ : State} {site : Statement} (h : Context s q q₁) (hbottom : q₁ ≠ s.bottom)
      (ht : ⟨q₁, site, q₂⟩ ∈ s.calls.transitions) : Context s q q₂

/-- A solver that looks for what the field `field` of an object created at `n` holds goes on
    at every store to the field, in the calling contexts the store is in. -/
def StoresDelivered (c : Setting ω) (r : Run ω) : Prop :=
  ∀ id s, r.solver? id = some s → s.direction = .backward →
    ∀ n field p, s.Processed n → c.scope.excludes n.stmt.method = false →
      ∀ hn : n.stmt.allocates n.var = true, fieldAt n field p ∈ s.fields.transitions →
      field ≠ .epsilon → ∃ follower, r.ids[Query.forward ⟨n, hn⟩]? = some follower ∧
        ∃ s', r.solver? follower = some s' ∧
          ∀ store written value p₀, store.stmt.action = .store store.var written value →
            field.sees written = true →
            fieldAt store .epsilon p₀ ∈ s'.fields.transitions →
            (∀ l p', ⟨p, l, p'⟩ ∈ s.fields.transitions →
              fieldAt ⟨store.stmt, value⟩ l p' ∈ s.fields.transitions) ∧
            ∀ q, callAt store q ∈ s'.calls.transitions →
              callAt ⟨store.stmt, value⟩ (importOf s follower s' q) ∈ s.calls.transitions ∧
              ∀ q₁ q₂ site, Context s' q q₁ → q₁ ≠ s'.bottom →
                ⟨q₁, site, q₂⟩ ∈ s'.calls.transitions →
                ⟨importOf s follower s' q₁, site, importOf s follower s' q₂⟩ ∈ s.calls.transitions

/-! ### Delivering -/

theorem IsCopy.eq_importOf {q q' : State} (h : r.IsCopy follower id q q')
    (hs : r.solver? id = some s) (hs' : r.solver? follower = some s') :
    q' = importOf s follower s' q := by
  obtain ⟨s₀', s₀, hs₀', hs₀, rfl⟩ := h
  obtain rfl : s₀ = s := some.inj (hs₀.symm.trans hs)
  obtain rfl : s₀' = s' := some.inj (hs₀'.symm.trans hs')
  rfl

variable [Weight ω] [DecidableEq ω] {c : Setting ω} {store : Node}

open Solver

omit [DecidableEq ω] in
/-- What a node means for other solvers is sent to them. -/
theorem Finished.effect {g : CallGraph} {sent : Message → Prop} (h : Finished c g sent s) {n : Node}
    (hn : n ∈ s.reached) (hincluded : c.scope.excludes n.stmt.method = false) {e : Effect}
    (he : (s.flowAt c.program n).effect = some e) : ∀ x ∈ e.changes n, s.Made sent x := by
  intro x hx
  refine (h.node hn hincluded).1 x (mem_append_right _ ?_)
  rw [he]
  exact mem_flatMap.2 ⟨e, mem_cons_self, hx⟩

section

variable (h : r.Complete c)
include h

/-- A solver that follows a value to a store asks for the aliases of what is written to, at the
    store and in the frames below it. -/
theorem Complete.aliases_asked (hs : r.solver? id = some s) (hforward : s.direction = .forward)
    {base : Local} (hstore : store ∈ s.reached)
    (hincluded : c.scope.excludes store.stmt.method = false)
    (haction : store.stmt.action = .store base field store.var) :
    ∃ finder, r.ids[Query.backward ⟨⟨store.stmt, base⟩⟩]? = some finder ∧
      ∀ q ∈ r.allocations.get finder, ∃ follower, r.ids[Query.forward q]? = some follower ∧
        ∃ s', r.solver? follower = some s' ∧
          s'.fields.Listens .all (.request (.aliasesAt id store base field)) ∧
          (.single base, .callerFrames id store field []) ∈ s'.callRequests := by
  have heffect : (s.flowAt c.program store).effect = some (.writes base field) := by
    simp [flowAt, hforward, Flow.Forward.flow, haction]
  obtain ⟨finder, hfinder, hsubscribed⟩ := h.handled hs
    ((h.finished hs).effect hstore hincluded heffect _ mem_cons_self)
  refine ⟨finder, hfinder, fun q hq => ?_⟩
  obtain ⟨follower, hfollower, hregistered⟩ := h.notified hsubscribed hq
  obtain ⟨s', hs', hlistens⟩ := h.installed hregistered
  exact ⟨follower, hfollower, s', hs', hlistens base field haction⟩

theorem Complete.aliasesDelivered : r.AliasesDelivered c := by
  intro id s hs hforward store base field hstore hincluded haction
  obtain ⟨finder, hfinder, hasked⟩ := h.aliases_asked hs hforward hstore.1 hincluded haction
  refine ⟨finder, hfinder, fun q hq => ?_⟩
  obtain ⟨follower, hfollower, s', hs', hlistens, -⟩ := hasked q hq
  refine ⟨follower, hfollower, s', hs', fun y p hy hp t ht => ?_⟩
  -- The solver is told of the alias, and can write through it from then on.
  have hdone := (h.finished hs').field hlistens hp (Transition.all_mem_topics _)
  simp only [FieldDone, FieldRule.changes, FieldRequest.changes, fieldAt] at hdone
  rw [if_pos ⟨trivial, trivial, hy⟩] at hdone
  have hmade := Has.of_solver? (h.handled hs' (hdone _ mem_cons_self)) hs
  have hfield := hmade _ (mem_flatMap.2 ⟨t, ht, mem_cons_of_mem _ mem_cons_self⟩)
  have hfinished := h.finished hs
  obtain ⟨-, l, p₁, hp₁⟩ := (hfinished.reached_iff store).1 hstore.1
  exact ⟨hfinished.carriesCalls (hmade _ (mem_flatMap.2 ⟨t, ht, mem_cons_self⟩)),
    (hfinished.pushesField hfield hp₁).1, fun l p hp => (hfinished.pushesField hfield hp).2⟩

/-- A solver that comes to where a value is created asks for what it is to find there. -/
theorem Complete.allocation_handled (hs : r.solver? id = some s)
    (hbackward : s.direction = .backward) {n : Node} (hn : n ∈ s.reached)
    (hincluded : c.scope.excludes n.stmt.method = false)
    (hallocates : n.stmt.allocates n.var = true) {p : State}
    (hp : fieldAt n field p ∈ s.fields.transitions) : r.Handled c id (.allocation n field p) := by
  have heffect : (s.flowAt c.program n).effect = some .creates := by
    simp [flowAt, hbackward, Flow.Backward.flow, hallocates]
  have hlistens : s.fields.Listens (.out (.located n)) (.request (.allocation n)) :=
    (h.finished hs).effect hn hincluded heffect _ mem_cons_self
  exact h.handled hs ((h.finished hs).field hlistens hp (Transition.out_mem_topics _) _
    mem_cons_self)

end

/-- A transition out of a state to be copied is copied. -/
theorem Complete.copy_handled (h : r.Complete c) (hs' : r.solver? follower = some s') {q q' : State}
    {site : Statement} (hcopies : r.CopiesOut follower id q) (hbottom : q ≠ s'.bottom)
    (ht : ⟨q, site, q'⟩ ∈ s'.calls.transitions) :
    r.Handled c follower (.copied id ⟨q, site, q'⟩) := by
  have hregistered := (Has.of_solver? hcopies hs').resolve_left hbottom
  have hlistens := (h.installed hregistered).of_solver? hs'
  obtain ⟨w, -, hmade⟩ := (h.finished hs').call hlistens ht (Transition.out_mem_topics _)
  exact h.handled hs' (hmade _ mem_cons_self)

/-- Every calling context below one that is copied is copied, too. -/
theorem Complete.copiesOut_of_context (h : r.Complete c) (hs' : r.solver? follower = some s')
    {q q₁ : State} (hcopies : r.CopiesOut follower id q) (hcontext : Context s' q q₁) :
    r.CopiesOut follower id q₁ := by
  induction hcontext with
  | refl => exact hcopies
  | deeper _ hbottom ht ih => exact (h.copy_handled hs' ih hbottom ht).2.1

theorem Complete.storesDelivered (h : r.Complete c) : r.StoresDelivered c := by
  intro id s hs hbackward n field p hn hincluded hallocates hp hfield
  obtain ⟨follower, hfollower, hregistered⟩ :=
    (h.allocation_handled hs hbackward hn.1 hincluded hallocates hp hallocates).2 hfield
  obtain ⟨s', hs', -⟩ := h.ids hfollower
  refine ⟨follower, hfollower, s', hs', fun store written value p₀ haction hsees hp₀ => ?_⟩
  have hdone := (h.finished hs').field ((h.installed hregistered).of_solver? hs') hp₀
    (Transition.all_mem_topics _)
  simp only [FieldDone, FieldRule.changes, FieldRequest.changes, fieldAt, haction] at hdone
  rw [if_pos ⟨trivial, trivial, hsees⟩] at hdone
  obtain ⟨hcontexts, hpops⟩ := h.handled hs' (hdone _ mem_cons_self)
  refine ⟨fun l p' hp' => (h.finished hs).popMatchesField (hpops.of_solver? hs) hp', fun q hq => ?_⟩
  have hlistens := (h.installed hcontexts).of_solver? hs'
  obtain ⟨w, -, hmade⟩ := (h.finished hs').call (hlistens store.var written haction) hq
    (Transition.outBy_mem_topics _)
  obtain ⟨hcopies, q', hq', hcall⟩ := h.handled hs' (hmade _ mem_cons_self)
  refine ⟨hq'.eq_importOf hs hs' ▸ hcall.of_solver? hs, fun q₁ q₂ site hcontext hbottom ht => ?_⟩
  obtain ⟨-, -, q₁', q₂', hq₁', hq₂', ht'⟩ :=
    h.copy_handled hs' (h.copiesOut_of_context hs' hcopies hcontext) hbottom ht
  rw [← hq₁'.eq_importOf hs hs', ← hq₂'.eq_importOf hs hs']
  exact ht'.of_solver? hs

/-- In a converged run no notification is lost, whether reachability is asked for or trails. -/
theorem delivered_of_converged :
    (∀ (c : Setting Reach) (r : Run Reach), c.weighing = .reach → Reachable c r →
      r.phase = .converged → r.AliasesDelivered c ∧ r.StoresDelivered c) ∧
    ∀ (c : Setting Trail) (r : Run Trail), c.weighing = .trail → Reachable c r →
      r.phase = .converged → r.AliasesDelivered c ∧ r.StoresDelivered c := by
  refine ⟨fun c r hc h hconverged => ?_, fun c r hc h hconverged => ?_⟩
  · have hcomplete := h.complete (hc ▸ zeroFree_reach) hconverged
    exact ⟨hcomplete.aliasesDelivered, hcomplete.storesDelivered⟩
  · have hcomplete := h.complete (hc ▸ zeroFree_trail) hconverged
    exact ⟨hcomplete.aliasesDelivered, hcomplete.storesDelivered⟩

theorem delivered_sharing :
    (∃ r, Reachable (Sharing.setting .reach) r ∧ r.phase = .converged ∧
      r.AliasesDelivered (Sharing.setting .reach) ∧ r.StoresDelivered (Sharing.setting .reach)) ∧
    ∃ r, Reachable (Sharing.setting .trail) r ∧ r.phase = .converged ∧
      r.AliasesDelivered (Sharing.setting .trail) ∧ r.StoresDelivered (Sharing.setting .trail) := by
  obtain ⟨r, hr, hconverged⟩ := exists_reachable Sharing.converges_reach
  obtain ⟨r', hr', hconverged'⟩ := exists_reachable Sharing.converges_trail
  exact ⟨⟨r, hr, hconverged, delivered_of_converged.1 _ r rfl hr hconverged⟩,
    r', hr', hconverged', delivered_of_converged.2 _ r' rfl hr' hconverged'⟩

end DemandAlias.Run
