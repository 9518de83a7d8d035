import DemandAlias.Proofs.Run.Legit
import DemandAlias.Proofs.Run.Promise

/-!
# What a run keeps to

Each solver of a run keeps to what a solver keeps to, where the messages that have left
its outbox are handled, or wait to be (`Core`). Besides, every registration is backed by
a rule, and requests are legitimate.

The parts of which the handling of messages is made up are shown to keep to this one by
one: changing a solver, creating one, and noting things.
-/

namespace DemandAlias

/-- The direction in which a query is answered. -/
def Query.direction : Query → Direction
  | .forward _ => .forward
  | .backward _ => .backward

namespace Run

variable {ω : Type} {c : Setting ω} {waiting waiting' : SolverId → Message → Prop}
  {r r' r'' : Run ω} {id : SolverId} {f : Solver ω → Solver ω}

/-! ### Solvers and books -/

theorem index_lt {s : Solver ω} (h : r.solver? id = some s) : id.index < r.solvers.size :=
  (Array.getElem?_eq_some_iff.1 h).1

theorem solver?_modifySolver (r : Run ω) (id id' : SolverId) (f : Solver ω → Solver ω) :
    (r.modifySolver id f).solver? id' =
      if id = id' then (r.solver? id').map f else r.solver? id' := by
  obtain ⟨i⟩ := id
  obtain ⟨j⟩ := id'
  simp only [solver?, modifySolver, Array.getElem?_modify, SolverId.mk.injEq]

theorem solver?_modifySolver_cases {r : Run ω} {id id' : SolverId} {s' : Solver ω}
    (h : (r.modifySolver id f).solver? id' = some s') :
    (∃ s, id = id' ∧ r.solver? id = some s ∧ f s = s') ∨ id ≠ id' ∧ r.solver? id' = some s' := by
  rw [solver?_modifySolver] at h
  split at h
  · next heq =>
    obtain ⟨s, hs, rfl⟩ := map_eq_some_iff.1 h
    exact .inl ⟨s, heq, heq ▸ hs, rfl⟩
  · next hne => exact .inr ⟨hne, h⟩

theorem size_modifySolver (r : Run ω) (id : SolverId) (f : Solver ω → Solver ω) :
    (r.modifySolver id f).solvers.size = r.solvers.size :=
  Array.size_modify

/-- The same calls are resolved. -/
structure SameCalls (r r' : Run ω) : Prop where
  sites : r'.resolvedSites = r.resolvedSites
  methods : r'.resolvedMethods = r.resolvedMethods

theorem SameCalls.refl (r : Run ω) : SameCalls r r := ⟨rfl, rfl⟩

theorem SameCalls.trans (h : SameCalls r r') (h' : SameCalls r' r'') : SameCalls r r'' :=
  ⟨h'.sites.trans h.sites, h'.methods.trans h.methods⟩

/-- The allocations and subscribers noted are the same, and so are the calls resolved. -/
structure SameBooks (r r' : Run ω) : Prop extends SameCalls r r' where
  allocations : r'.allocations = r.allocations
  subscribers : r'.subscribers = r.subscribers

theorem SameBooks.refl (r : Run ω) : SameBooks r r := ⟨.refl r, rfl, rfl⟩

theorem SameBooks.trans (h : SameBooks r r') (h' : SameBooks r' r'') : SameBooks r r'' :=
  ⟨h.toSameCalls.trans h'.toSameCalls, h'.allocations.trans h.allocations,
    h'.subscribers.trans h.subscribers⟩

/-- If a solver grows, so does the run. -/
theorem grows_modifySolver (r : Run ω) (id : SolverId)
    (hf : ∀ s, r.solver? id = some s → Solver.Grows s (f s)) : Grows r (r.modifySolver id f) where
  graph := .refl r.graph
  solvers {id' s} hs := by
    rw [solver?_modifySolver]
    split
    · next heq => exact ⟨f s, by rw [hs]; rfl, hf s (heq ▸ hs)⟩
    · exact ⟨s, hs, .refl s⟩
  ids hq := hq
  allocations hq := hq
  subscribers hk := hk
  registered hx := hx
  failed hf := hf

/-! ### The invariant -/

variable [Weight ω]

/-- What a run keeps to while the messages `waiting` have left the outboxes of their
    solvers and are not handled yet. -/
structure Core [DecidableEq ω] (c : Setting ω) (waiting : SolverId → Message → Prop) (r : Run ω) :
    Prop where
  kept : ∀ {id s}, r.solver? id = some s → s.Kept c r.graph fun m => waiting id m ∨ r.Handled c id m
  within : ∀ {id s}, r.solver? id = some s → s.Within (legit r.solvers.size)
  quiet : ∀ {id s}, r.solver? id = some s → s.outbox = []
  started : ∀ {id s}, r.solver? id = some s → (Solver.start id s.direction s.seed).Grows s
  ids : ∀ {q : Query} {id}, r.ids[q]? = some id →
    r.Has id fun s => s.seed = q.node ∧ s.direction = q.direction
  subscribed : ∀ {id k}, k ∈ r.subscribers.get id → k.Legit r.solvers.size
  installed : ∀ {x}, x ∈ r.registered → r.Installed x

/-- Every subscriber was told of every allocation. -/
def AllNotified (p : Program) (r : Run ω) : Prop :=
  ∀ ⦃id k q⦄, k ∈ r.subscribers.get id → q ∈ r.allocations.get id → r.Notified p q k

variable [DecidableEq ω]

/-- A solver of the next run: it has done more than before, or is at its start. -/
inductive Continues (c : Setting ω) (waiting : SolverId → Message → Prop) (r : Run ω)
    (id : SolverId) (s' : Solver ω) : Prop
  | before {s : Solver ω} (hs : r.solver? id = some s) (hgrows : Solver.Grows s s')
      (hkept : s'.Kept c r.graph fun m => waiting id m ∨ r.Handled c id m)
      (hwithin : s'.Within (legit r.solvers.size)) (hquiet : s'.outbox = [])
  | new (direction : Direction) (seed : Node) (hs : s' = .start id direction seed)

/-- A solver that is left alone goes on. -/
theorem Core.continues (h : r.Core c waiting) {id : SolverId} {s : Solver ω}
    (hs : r.solver? id = some s) (hwaiting : ∀ m, waiting id m → waiting' id m) :
    Continues c waiting' r id s :=
  .before hs (.refl s) ((h.kept hs).mono_sent fun m => .imp_left (hwaiting m)) (h.within hs)
    (h.quiet hs)

/-- The run `r'` keeps to everything and has all that `r` has. -/
structure Leads (c : Setting ω) (waiting : SolverId → Message → Prop) (r r' : Run ω) : Prop where
  core : r'.Core c waiting
  grows : Grows r r'
  clock : SameClock r r'

theorem Leads.refl (h : r.Core c waiting) : Leads c waiting r r := ⟨h, .refl r, .refl r⟩

theorem Leads.trans (h : Leads c waiting r r') (h' : Leads c waiting r' r'') :
    Leads c waiting r r'' :=
  ⟨h'.core, h.grows.trans h'.grows, h.clock.trans h'.clock⟩

/-- The run with a new solver for a query. -/
def create (r : Run ω) (q : Query) : Run ω :=
  { r with
    solvers := r.solvers.push (.start ⟨r.solvers.size⟩ q.direction q.node)
    ids := r.ids.insert q ⟨r.solvers.size⟩ }

theorem withSolver_cases (r : Run ω) (q : Query) :
    (∃ id, r.ids[q]? = some id ∧ r.withSolver q = (r, id)) ∨
      r.ids[q]? = none ∧ r.withSolver q = (r.create q, ⟨r.solvers.size⟩) := by
  unfold withSolver
  split
  · next id hid => exact .inl ⟨id, hid, rfl⟩
  · next hid => exact .inr ⟨hid, by cases q <;> rfl⟩

theorem solver?_create (r : Run ω) (q : Query) (id : SolverId) :
    (r.create q).solver? id = if id.index = r.solvers.size then
      some (.start ⟨r.solvers.size⟩ q.direction q.node) else r.solver? id :=
  Array.getElem?_push

theorem ids_create (r : Run ω) (q q' : Query) :
    (r.create q).ids[q']? = if q = q' then some ⟨r.solvers.size⟩ else r.ids[q']? := by
  simp only [create, Std.HashMap.getElem?_insert, beq_iff_eq]

variable [ZeroFree ω]

/-- A run keeps to everything if its solvers go on, and what is new is legitimate and backed. -/
theorem Core.of_continues (h : r.Core c waiting) (hr : Grows r r')
    (hsize : r.solvers.size ≤ r'.solvers.size)
    (hsolvers : ∀ {id s'}, r'.solver? id = some s' → Continues c waiting' r id s')
    (hids : ∀ {q : Query} {id}, r'.ids[q]? = some id → r.ids[q]? = some id ∨
      r'.Has id fun s => s.seed = q.node ∧ s.direction = q.direction)
    (hsubscribed : ∀ {id k}, k ∈ r'.subscribers.get id → k ∈ r.subscribers.get id ∨
      k.Legit r'.solvers.size)
    (hinstalled : ∀ {x}, x ∈ r'.registered → x ∈ r.registered ∨ r'.Installed x) :
    r'.Core c waiting' where
  kept hs' := by
    cases hsolvers hs' with
    | before _ _ hkept =>
      exact (hkept.grow hr.graph).mono_sent fun m => .imp_right fun hm => hm.mono hr
    | new _ _ hs =>
      rw [hs]
      exact Solver.kept_start ..
  within hs' := by
    cases hsolvers hs' with
    | before _ _ _ hwithin =>
      exact ⟨fun _ => trivial, fun _ => trivial,
        fun hk r hr => (hwithin.callRule hk r hr).mono hsize,
        fun hk r hr => (hwithin.fieldRule hk r hr).mono hsize,
        fun hm => Message.Legit.mono (hwithin.message hm) hsize, fun _ => trivial⟩
    | new direction _ hs =>
      rw [hs]
      exact Solver.within_start _ direction trivial trivial (fun _ h => by cases h)
        fun _ h => by cases h
  quiet hs' := by
    cases hsolvers hs' with
    | before _ _ _ _ hquiet => exact hquiet
    | new _ _ hs => rw [hs]; rfl
  started hs' := by
    cases hsolvers hs' with
    | before hs hgrows =>
      rw [hgrows.direction, hgrows.seed]
      exact (h.started hs).trans hgrows
    | new _ _ hs =>
      rw [hs]
      exact .refl _
  ids hq := (hids hq).elim (fun hq => (h.ids hq).mono hr fun hs hP =>
    ⟨hs.seed.trans hP.1, hs.direction.trans hP.2⟩) fun hq => hq
  subscribed hk := (hsubscribed hk).elim (fun hk => (h.subscribed hk).mono hsize) fun hk => hk
  installed hx := (hinstalled hx).elim (fun hx => (h.installed hx).mono hr) fun hx => hx

/-! ### Changing a solver -/

section

variable (h : r.Core c waiting)
include h

/-- Changing a solver keeps to everything, if the solver does. -/
theorem Core.modifySolver (id : SolverId)
    (hf : ∀ s, r.solver? id = some s → Solver.Grows s (f s) ∧
      (f s).Kept c r.graph (fun m => waiting' id m ∨ r.Handled c id m) ∧
      (f s).Within (legit r.solvers.size) ∧ (f s).outbox = [])
    (hwaiting : ∀ id' m, id' ≠ id → waiting id' m → waiting' id' m) :
    (r.modifySolver id f).Core c waiting' := by
  have hgrows := grows_modifySolver r id fun s hs => (hf s hs).1
  refine h.of_continues hgrows (Nat.le_of_eq (size_modifySolver r id f).symm)
    (fun {id' s'} hs' => ?_) .inl .inl .inl
  rcases solver?_modifySolver_cases hs' with ⟨s, rfl, hs, rfl⟩ | ⟨hne, hs'⟩
  · obtain ⟨hg, hkept, hwithin, hquiet⟩ := hf s hs
    exact .before hs hg hkept hwithin hquiet
  · exact h.continues hs' fun m => hwaiting id' m (Ne.symm hne)

/-- Changes that others let a solver make keep to everything. -/
theorem leads_change (id : SolverId) {xs : List (Change ω)} (hplain : ∀ x ∈ xs, Solver.Plain x)
    (hallowed : ∀ x ∈ xs, (legit r.solvers.size).Allows x) :
    Leads c waiting r (r.modifySolver id fun s => s.makeAll xs) := by
  have hproper : ∀ s : Solver ω, ∀ x ∈ xs, s.Proper x := fun s x hx =>
    (hplain x hx).proper s
  have hfollows : ∀ s, r.solver? id = some s → Solver.Follows c r.graph s (s.makeAll xs) :=
    fun s hs => (Solver.follows_makeAll (h.kept hs).sound xs (hproper s)).1
  refine ⟨h.modifySolver id (fun s hs => ⟨(hfollows s hs).grows, (h.kept hs).follows (hfollows s hs),
    (h.within hs).makeAll (h.kept hs).sound (hproper s) hallowed, ?_⟩) fun _ _ _ hm => hm,
    grows_modifySolver r id fun s hs => (hfollows s hs).grows, rfl, .inl rfl⟩
  rw [Solver.outbox_makeAll s hplain, h.quiet hs]

/-- Afterwards the changes are made. -/
theorem has_change (hid : id.index < r.solvers.size) {xs : List (Change ω)}
    (hplain : ∀ x ∈ xs, Solver.Plain x) :
    (r.modifySolver id fun s => s.makeAll xs).Has id fun s =>
      ∀ x ∈ xs, Solver.Made (fun _ => False) s x := by
  have hs : r.solver? id = some r.solvers[id.index] := Array.getElem?_eq_getElem hid
  refine ⟨r.solvers[id.index].makeAll xs, ?_, ?_⟩
  · rw [solver?_modifySolver, if_pos rfl, hs]
    rfl
  · exact (Solver.follows_makeAll (c := c) (g := r.graph) (h.kept hs).sound xs fun x hx =>
      (hplain x hx).proper _).2 _

/-! ### Noting things -/

/-- Noting something keeps to everything, if the solvers and registrations stay and new
    subscribers are legitimate. -/
theorem Core.note (hgrows : Grows r r') (hsolvers : r'.solvers = r.solvers)
    (hids : r'.ids = r.ids)
    (hsubscribed : ∀ {id k}, k ∈ r'.subscribers.get id →
      k ∈ r.subscribers.get id ∨ k.Legit r.solvers.size)
    (hregistered : r'.registered = r.registered) : r'.Core c waiting := by
  refine h.of_continues hgrows (Nat.le_of_eq (by rw [hsolvers])) (fun {id s} hs => ?_)
    (fun hq => .inl (hids ▸ hq)) (fun hk => ?_) fun hx => .inl (hregistered ▸ hx)
  · rw [solver?, hsolvers] at hs
    exact h.continues hs fun _ hm => hm
  · rw [hsolvers]
    exact hsubscribed hk

theorem leads_addEdge (site : Statement) (m : MethodName) :
    Leads c waiting r (r.addEdge site m) := by
  have hgrows : Grows r (r.addEdge site m) := { Grows.refl r with graph := .addEdge r.graph site m }
  exact ⟨h.note hgrows rfl rfl .inl rfl, hgrows, rfl, .inl rfl⟩

end

/-! ### Creating a solver -/

theorem leads_create (h : r.Core c waiting) {q : Query} (hq : r.ids[q]? = none) :
    Leads c waiting r (r.create q) := by
  have hgrows : Grows r (r.create q) :=
    { Grows.refl r with
      solvers := fun {id s} hs => by
        refine ⟨s, ?_, .refl s⟩
        rw [solver?_create, if_neg (Nat.ne_of_lt (index_lt hs)), hs]
      ids := fun {q' id} hq' => by
        have hne : q ≠ q' := fun heq => by
          rw [← heq, hq] at hq'
          cases hq'
        rw [ids_create, if_neg hne, hq'] }
  refine ⟨h.of_continues hgrows ?_ (fun {id s'} hs' => ?_) (fun {q' id} hq' => ?_) .inl .inl, hgrows, rfl, .inl rfl⟩
  · rw [create, Array.size_push]
    exact Nat.le_succ _
  · rw [solver?_create] at hs'
    split at hs'
    · next heq =>
      obtain ⟨i⟩ := id
      exact .new q.direction q.node (by rw [← some.inj hs', ← heq])
    · exact h.continues hs' fun _ hm => hm
  · rw [ids_create] at hq'
    split at hq'
    · next heq =>
      subst heq
      cases hq'
      exact .inr ⟨_, by rw [solver?_create, if_pos rfl], rfl, rfl⟩
    · exact .inl hq'

/-- The solver of a query is there once it is asked for. -/
theorem leads_withSolver (h : r.Core c waiting) (q : Query) :
    Leads c waiting r (r.withSolver q).1 ∧ SameBooks r (r.withSolver q).1 ∧
      (r.withSolver q).1.ids[q]? = some (r.withSolver q).2 := by
  rcases withSolver_cases r q with ⟨id, hid, heq⟩ | ⟨hnone, heq⟩
  · rw [heq]
    exact ⟨.refl h, .refl r, hid⟩
  · rw [heq]
    exact ⟨leads_create h hnone, ⟨⟨rfl, rfl⟩, rfl, rfl⟩, by rw [ids_create, if_pos rfl]⟩

/-! ### Registering -/

/-- A registration is backed once it is made. -/
theorem leads_register (h : r.Core c waiting) (hid : id.index < r.solvers.size) (x : Registration)
    (xs : List (Change ω)) (hplain : ∀ x ∈ xs, Solver.Plain x)
    (hallowed : ∀ x ∈ xs, (legit r.solvers.size).Allows x)
    (hinstalled : ∀ r' : Run ω, (r'.Has id fun s => ∀ y ∈ xs, Solver.Made (fun _ => False) s y) →
      r'.Installed x) :
    Leads c waiting r (r.register id x fun s => s.makeAll xs) ∧
      SameBooks r (r.register id x fun s => s.makeAll xs) ∧
      x ∈ (r.register id x fun s => s.makeAll xs).registered := by
  unfold register
  split
  · next hmem => exact ⟨.refl h, .refl r, Std.HashSet.contains_iff_mem.1 hmem⟩
  · -- The solver is changed first and the registration noted then: the order is all the same.
    have hchange := leads_change h id hplain hallowed
    have hhas := has_change h hid hplain
    generalize hr₁ : r.modifySolver id (fun s => s.makeAll xs) = r₁ at hchange hhas
    have heq : { r with registered := r.registered.insert x }.modifySolver id
        (fun s => s.makeAll xs) = { r₁ with registered := r₁.registered.insert x } := by
      rw [← hr₁]
      rfl
    rw [heq]
    have hgrows : Grows r₁ { r₁ with registered := r₁.registered.insert x } :=
      { Grows.refl r₁ with registered := fun hy => Std.HashSet.mem_insert.2 (.inr hy) }
    refine ⟨hchange.trans ⟨hchange.core.of_continues hgrows (Nat.le_refl _)
      (fun hs => hchange.core.continues hs fun _ hm => hm) .inl .inl fun {y} hy => ?_, hgrows, rfl, .inl rfl⟩, ?_,
      Std.HashSet.mem_insert_self⟩
    · rcases Std.HashSet.mem_insert.1 hy with hxy | hy
      · exact .inr (eq_of_beq hxy ▸ hinstalled _ hhas)
      · exact .inl hy
    · rw [← hr₁]
      exact ⟨⟨rfl, rfl⟩, rfl, rfl⟩

end Run

end DemandAlias
