import DemandAlias.Proofs.Run.Invariant

/-!
# Messages are handled

Passing on a message brings about what it is to bring about (`Kept.handle`): whatever
the order in which a store, an allocation and an alias are found, the last one of them
completes what the others have prepared. The registrations that are left out because
they were made before are no loss, as what they stand for is determined by them.
-/

namespace DemandAlias.Run

variable {ω : Type} {c : Setting ω} {waiting : SolverId → Message → Prop} {r r' r'' : Run ω}
  {sender requester : SolverId} {p : Program}

/-- As long as nobody subscribes and nothing is found, nobody needs to be told. -/
theorem AllNotified.mono (h : r.AllNotified p) (hr : Grows r r') (hb : SameBooks r r') :
    r'.AllNotified p := by
  intro id k q hk hq
  rw [hb.subscribers] at hk
  rw [hb.allocations] at hq
  exact (h hk hq).mono hr

theorem Grows.size_le (h : Grows r r') : r.solvers.size ≤ r'.solvers.size := by
  refine Nat.le_of_not_lt fun hlt => ?_
  have hs : r.solver? ⟨r'.solvers.size⟩ = some r.solvers[r'.solvers.size] :=
    Array.getElem?_eq_getElem hlt
  obtain ⟨s', hs', -⟩ := h.solvers hs
  exact Nat.lt_irrefl _ (index_lt hs')

theorem mem_callees_addEdge (g : CallGraph) (site : Statement) (m : MethodName) :
    m ∈ (g.addEdge site m).callees site := by
  unfold CallGraph.addEdge
  split
  · next hedge => exact List.contains_iff_mem.1 hedge
  · exact (mem_get_file ..).2 (.inr ⟨rfl, rfl⟩)

theorem isCopy_copyOf {s s' : Solver ω} (hs : r.solver? sender = some s)
    (hs' : r.solver? requester = some s') (q : State) :
    r.IsCopy sender requester q (r.copyOf sender requester q) := by
  refine ⟨s, s', hs, hs', ?_⟩
  simp only [copyOf, bottom?, hs, hs', map_some, Option.some.injEq, getD_some,
    eq_comm (a := s.bottom)]

/-- The copy of a state is not a local. -/
theorem IsCopy.var?_eq_none {q q' : State} (h : r.IsCopy sender requester q q') :
    q'.var? = none := by
  obtain ⟨s, s', -, -, rfl⟩ := h
  split <;> rfl

theorem allows_aliasChanges (size : Nat) (p : Program) (store : Node) (field : Field)
    (other : Node) (frames : List Statement) :
    ∀ x ∈ aliasChanges p store field other frames, (legit (ω := ω) size).Allows x := by
  refine forall_aliasChanges (fun _ _ _ => allows_moveChanges store _) fun _ _ _ => ⟨?_, ?_⟩ <;>
    rintro r ⟨⟩

variable [Weight ω]

theorem plain_aliasChanges (p : Program) (store : Node) (field : Field) (other : Node)
    (frames : List Statement) :
    ∀ x ∈ aliasChanges p store field other frames, Solver.Plain (x : Change ω) :=
  forall_aliasChanges (fun _ _ _ => Solver.plain_moveChanges store _)
    fun _ _ _ => ⟨trivial, trivial⟩

variable [DecidableEq ω]

/-- Besides, every subscriber was told of every allocation, and the callees of the call
    sites noted are looked for. -/
structure Noted (c : Setting ω) (waiting : SolverId → Message → Prop) (r : Run ω) : Prop
    extends Core c waiting r where
  notified : r.AllNotified c.program
  sites : ∀ {site}, site ∈ r.resolvedSites → r.Resolved c.program site

/-- What a run keeps to: besides, the callers of the methods noted are looked for. -/
structure Kept (c : Setting ω) (waiting : SolverId → Message → Prop) (r : Run ω) : Prop
    extends Noted c waiting r where
  methods : ∀ {method}, method ∈ r.resolvedMethods →
    ∀ site ∈ sitesOf c.program (.outOf method), r.Resolved c.program site

/-- The run `r'` keeps to everything, subscriptions included, and has all that `r` has. -/
structure Proceeds (c : Setting ω) (waiting : SolverId → Message → Prop) (r r' : Run ω) :
    Prop where
  kept : r'.Kept c waiting
  grows : Grows r r'
  clock : SameClock r r'

theorem Proceeds.refl (h : r.Kept c waiting) : Proceeds c waiting r r := ⟨h, .refl r, .refl r⟩

theorem Proceeds.trans (h : Proceeds c waiting r r') (h' : Proceeds c waiting r' r'') :
    Proceeds c waiting r r'' :=
  ⟨h'.kept, h.grows.trans h'.grows, h.clock.trans h'.clock⟩

/-- As long as no more calls are resolved, none needs to be looked for. -/
theorem Kept.of_notified (h : r.Kept c waiting) (hl : Leads c waiting r r')
    (hn : r'.AllNotified c.program) (hc : SameCalls r r') : Proceeds c waiting r r' :=
  { hl with
    kept :=
      { hl.core with
        notified := hn
        sites := fun hsite => (h.sites (hc.sites ▸ hsite)).mono hl.grows
        methods := fun hmethod site hsite =>
          (h.methods (hc.methods ▸ hmethod) site hsite).mono hl.grows } }

theorem Kept.proceeds (h : r.Kept c waiting) (hl : Leads c waiting r r') (hb : SameBooks r r') :
    Proceeds c waiting r r' :=
  h.of_notified hl (h.notified.mono hl.grows hb) hb.toSameCalls

/-- What is done for a call site that is not noted yet. -/
def lookUp (p : Program) (r : Run ω) (site : Statement) : Run ω :=
  match site.call? with
  | some ⟨.static m, _⟩ => if p.defines m then r.addEdge site m else r
  | some ⟨.virtual receiver name, _⟩ =>
    let (r, id) := r.withSolver (.backward ⟨site, receiver⟩)
    r.subscribe p id (.resolve site name)
  | none => r

theorem resolve_eq (p : Program) (r : Run ω) (site : Statement) :
    r.resolve p site = if r.resolvedSites.contains site then r
      else { r with resolvedSites := r.resolvedSites.insert site }.lookUp p site := rfl

theorem handleAlias_eq (p : Program) (r : Run ω) (requester : SolverId) (store : Node)
    (field : Field) (other : Node) (frames : List Statement) :
    r.handleAlias p requester store field other frames =
      r.modifySolver requester fun s => s.makeAll (aliasChanges p store field other frames) := by
  cases frames with
  | nil =>
    simp only [Run.handleAlias, List.isEmpty_nil, if_true, Solver.followAll_eq, List.flatMap_map,
      aliasChanges]
  | cons => rfl

variable [ZeroFree ω]

/-! ### Telling subscribers -/

theorem leads_notify (h : r.Core c waiting) {k : Subscriber} (hk : k.Legit r.solvers.size)
    (p : Program) (q : ForwardQuery) :
    Leads c waiting r (r.notify p k q) ∧ SameBooks r (r.notify p k q) ∧
      (r.notify p k q).Notified p q k := by
  cases k with
  | resolve site =>
    simp only [notify]
    split
    · next m hm =>
      refine ⟨leads_addEdge h site m, ⟨⟨rfl, rfl⟩, rfl, rfl⟩, fun m' hm' => ?_⟩
      cases hm.symm.trans hm'
      exact mem_callees_addEdge r.graph site m
    · next hnone =>
      refine ⟨.refl h, .refl r, fun m hm => ?_⟩
      cases hnone.symm.trans hm
  | fieldWrite requester store base field =>
    obtain ⟨hnew, hbooks, hid⟩ := leads_withSolver h (.forward q)
    simp only [notify]
    generalize r.withSolver (.forward q) = w at hnew hbooks hid ⊢
    obtain ⟨r₁, id⟩ := w
    obtain ⟨hrequester, hstore⟩ := hk
    have hlt : requester.index < r₁.solvers.size := Nat.lt_of_lt_of_le hrequester hnew.grows.size_le
    obtain ⟨s, hs, -⟩ := hnew.core.ids hid
    -- The solver of the allocation is asked for aliases of the base, here and in callers.
    obtain ⟨hreg, hbooks', hmem⟩ := leads_register hnew.core (index_lt hs)
      (.aliasesAt id requester store)
      [.fieldRule .all (.request (.aliasesAt requester store base field)),
        .callRequest (.single base) (.outBy (.single base) store.stmt)
          (.callerFrames requester store field [])]
      (by simp [Solver.Plain, CallRequest.topic, State.var?])
      (by simpa [Bound.Allows, legit, FieldRequest.Legit, CallRequest.Legit] using
        ⟨hlt, base, hstore⟩)
      (by
        rintro r' ⟨s, hs, hmade⟩
        refine ⟨s, hs, fun base' field' hstore' => ?_⟩
        rw [hstore] at hstore'
        cases hstore'
        exact ⟨hmade _ mem_cons_self, hmade _ (mem_cons_of_mem _ mem_cons_self)⟩)
    exact ⟨hnew.trans hreg, hbooks.trans hbooks', id, hreg.grows.ids hid, hmem⟩
  | aliases =>
    obtain ⟨hnew, hbooks, hid⟩ := leads_withSolver h (.forward q)
    exact ⟨hnew, hbooks, _, hid⟩

theorem leads_foldl_notify {α : Type} (k : α → Subscriber) (q : α → ForwardQuery) (xs : List α)
    (h : r.Core c waiting) (hk : ∀ x ∈ xs, (k x).Legit r.solvers.size) (p : Program) :
    Leads c waiting r (xs.foldl (fun r x => r.notify p (k x) (q x)) r) ∧
      SameBooks r (xs.foldl (fun r x => r.notify p (k x) (q x)) r) ∧
      ∀ x ∈ xs, (xs.foldl (fun r x => r.notify p (k x) (q x)) r).Notified p (q x) (k x) := by
  induction xs generalizing r with
  | nil => exact ⟨.refl h, .refl r, fun x hx => nomatch hx⟩
  | cons x _ ih =>
    obtain ⟨hl, hb, hn⟩ := leads_notify h (hk x mem_cons_self) p (q x)
    obtain ⟨hl', hb', hn'⟩ := ih hl.core fun y hy =>
      (hk y (mem_cons_of_mem _ hy)).mono hl.grows.size_le
    refine ⟨hl.trans hl', hb.trans hb', fun y hy => ?_⟩
    rcases mem_cons.1 hy with rfl | hy
    · exact hn.mono hl'.grows
    · exact hn' y hy

/-- Whoever subscribes is told of what was found before. -/
theorem leads_subscribe (h : r.Core c waiting) (hn : r.AllNotified p) {k : Subscriber}
    (hk : k.Legit r.solvers.size) (id : SolverId) :
    Leads c waiting r (r.subscribe p id k) ∧ (r.subscribe p id k).AllNotified p ∧
      SameCalls r (r.subscribe p id k) ∧ k ∈ (r.subscribe p id k).subscribers.get id := by
  have hgrows : Grows r { r with subscribers := r.subscribers.file id k } :=
    { Grows.refl r with subscribers := fun hk' => (mem_get_file ..).2 (.inl hk') }
  have hnote := h.note hgrows rfl rfl
    (fun hk' => ((mem_get_file ..).1 hk').imp_right fun ⟨_, heq⟩ => heq ▸ hk) rfl
  have hclock : SameClock r { r with subscribers := r.subscribers.file id k } := ⟨rfl, .inl rfl⟩
  obtain ⟨hl, hb, hn'⟩ :=
    leads_foldl_notify (fun _ => k) (fun q => q) (r.allocations.get id) hnote (fun _ _ => hk) p
  have hsubscribers : (r.subscribe p id k).subscribers = r.subscribers.file id k := hb.subscribers
  have hallocations : (r.subscribe p id k).allocations = r.allocations := hb.allocations
  refine ⟨⟨hl.core, hgrows.trans hl.grows, hclock.trans hl.clock⟩, fun id' k' q hk' hq => ?_,
    ⟨hb.sites, hb.methods⟩, hl.grows.subscribers ((mem_get_file ..).2 (.inr ⟨rfl, rfl⟩))⟩
  rw [hsubscribers] at hk'
  rw [hallocations] at hq
  rcases (mem_get_file ..).1 hk' with hk' | ⟨rfl, rfl⟩
  · exact (hn hk' hq).mono (hgrows.trans hl.grows)
  · exact hn' q hq

theorem Kept.subscribe (h : r.Kept c waiting) (k : Subscriber) (hk : k.Legit r.solvers.size)
    (id : SolverId) :
    Proceeds c waiting r (r.subscribe c.program id k) ∧
      k ∈ (r.subscribe c.program id k).subscribers.get id := by
  obtain ⟨hl, hn, hc, hmem⟩ := leads_subscribe h.toCore h.notified hk id
  exact ⟨h.of_notified hl hn hc, hmem⟩

/-- An allocation that is found is told to those who subscribed before. -/
theorem Kept.found (h : r.Kept c waiting) (id : SolverId) (q : ForwardQuery) :
    Proceeds c waiting r (r.found c.program id q) ∧
      q ∈ (r.found c.program id q).allocations.get id := by
  unfold Run.found
  split
  · next hmem => exact ⟨.refl h, List.contains_iff_mem.1 hmem⟩
  · have hgrows : Grows r { r with allocations := r.allocations.file id q } :=
      { Grows.refl r with allocations := fun hq' => (mem_get_file ..).2 (.inl hq') }
    have hnote := h.toCore.note hgrows rfl rfl .inl rfl
    have hclock : SameClock r { r with allocations := r.allocations.file id q } := ⟨rfl, .inl rfl⟩
    obtain ⟨hl, hb, hn⟩ := leads_foldl_notify (fun k => k) (fun _ => q) _ hnote
      (fun k hk => h.subscribed hk) c.program
    refine ⟨h.of_notified ⟨hl.core, hgrows.trans hl.grows, hclock.trans hl.clock⟩ ?_
      ⟨hb.sites, hb.methods⟩, hl.grows.allocations ((mem_get_file ..).2 (.inr ⟨rfl, rfl⟩))⟩
    intro id' k q' hk hq'
    rw [hb.subscribers] at hk
    rw [hb.allocations] at hq'
    rcases (mem_get_file ..).1 hq' with hq' | ⟨rfl, rfl⟩
    · exact (h.notified hk hq').mono (hgrows.trans hl.grows)
    · exact hn k hk

/-! ### Edges -/

theorem Kept.withSolver (h : r.Kept c waiting) (q : Query) :
    Proceeds c waiting r (r.withSolver q).1 ∧
      (r.withSolver q).1.ids[q]? = some (r.withSolver q).2 := by
  obtain ⟨hl, hb, hid⟩ := leads_withSolver h.toCore q
  exact ⟨h.proceeds hl hb, hid⟩

theorem leads_lookUp (h : r.Core c waiting) (hn : r.AllNotified p) (site : Statement) :
    Leads c waiting r (r.lookUp p site) ∧ (r.lookUp p site).AllNotified p ∧
      SameCalls r (r.lookUp p site) ∧ (r.lookUp p site).Resolved p site := by
  unfold Run.lookUp Resolved
  generalize site.call? = call
  rcases call with _ | ⟨m | ⟨receiver, name⟩, args⟩
  · exact ⟨.refl h, hn, .refl r, trivial⟩
  · dsimp only
    split
    · next hm =>
      have hl := leads_addEdge h site m
      exact ⟨hl, hn.mono hl.grows ⟨⟨rfl, rfl⟩, rfl, rfl⟩, ⟨rfl, rfl⟩,
        fun _ => mem_callees_addEdge r.graph site m⟩
    · next hm => exact ⟨.refl h, hn, .refl r, fun hm' => absurd hm' hm⟩
  · obtain ⟨hl, hb, hid⟩ := leads_withSolver h (.backward ⟨⟨site, receiver⟩⟩)
    dsimp only
    generalize r.withSolver (.backward ⟨⟨site, receiver⟩⟩) = w at hl hb hid ⊢
    obtain ⟨r₁, id⟩ := w
    obtain ⟨hl', hn', hc, hmem⟩ := leads_subscribe hl.core (hn.mono hl.grows hb)
      (k := .resolve site name) trivial id
    exact ⟨hl.trans hl', hn', hb.toSameCalls.trans hc, id, hl'.grows.ids hid, hmem⟩

/-- Once it is resolved, the callees of a call site are looked for. -/
theorem Noted.resolve (h : r.Noted c waiting) (site : Statement) :
    (r.resolve c.program site).Noted c waiting ∧ Grows r (r.resolve c.program site) ∧
      SameClock r (r.resolve c.program site) ∧
      (r.resolve c.program site).resolvedMethods = r.resolvedMethods ∧
      (r.resolve c.program site).Resolved c.program site := by
  rw [resolve_eq]
  split
  · next hmem =>
    exact ⟨h, .refl r, .refl r, rfl, h.sites (Std.HashSet.contains_iff_mem.1 hmem)⟩
  · obtain ⟨r₀, hr₀⟩ : ∃ r₀, r₀ = { r with resolvedSites := r.resolvedSites.insert site } :=
      ⟨_, rfl⟩
    have hgrows : Grows r r₀ := hr₀ ▸ { Grows.refl r with }
    have hcore : r₀.Core c waiting := h.toCore.note hgrows (hr₀ ▸ rfl) (hr₀ ▸ rfl)
      (by rw [hr₀]; exact .inl) (hr₀ ▸ rfl)
    have hnotified : r₀.AllNotified c.program := by
      intro id k q hk hq
      rw [hr₀] at hk hq
      exact (h.notified hk hq).mono hgrows
    obtain ⟨hl, hn, hc, hresolved⟩ := leads_lookUp hcore hnotified site
    rw [← hr₀]
    refine ⟨{ hl.core with notified := hn, sites := fun {site'} hsite' => ?_ },
      hgrows.trans hl.grows, ?_, hc.methods.trans (hr₀ ▸ rfl), hresolved⟩
    · rw [hc.sites, hr₀] at hsite'
      rcases Std.HashSet.mem_insert.1 hsite' with heq | hsite'
      · exact eq_of_beq heq ▸ hresolved
      · exact (h.sites hsite').mono (hgrows.trans hl.grows)
    · exact SameClock.trans (hr₀ ▸ ⟨rfl, .inl rfl⟩) hl.clock

theorem Noted.foldl_resolve (h : r.Noted c waiting) (sites : List Statement) :
    (sites.foldl (fun r site => r.resolve c.program site) r).Noted c waiting ∧
      Grows r (sites.foldl (fun r site => r.resolve c.program site) r) ∧
      SameClock r (sites.foldl (fun r site => r.resolve c.program site) r) ∧
      (sites.foldl (fun r site => r.resolve c.program site) r).resolvedMethods =
        r.resolvedMethods ∧
      ∀ site ∈ sites, (sites.foldl (fun r site => r.resolve c.program site) r).Resolved
        c.program site := by
  induction sites generalizing r with
  | nil => exact ⟨h, .refl r, .refl r, rfl, fun site hsite => nomatch hsite⟩
  | cons site _ ih =>
    obtain ⟨h₁, hgrows₁, hclock₁, hmethods₁, hresolved₁⟩ := h.resolve site
    obtain ⟨h₂, hgrows₂, hclock₂, hmethods₂, hresolved₂⟩ := ih h₁
    refine ⟨h₂, hgrows₁.trans hgrows₂, hclock₁.trans hclock₂, hmethods₂.trans hmethods₁,
      fun site' hsite' => ?_⟩
    rcases mem_cons.1 hsite' with rfl | hsite'
    · exact hresolved₁.mono hgrows₂
    · exact hresolved₂ site' hsite'

section

variable (h : r.Kept c waiting)
include h

/-- Once they are asked for, the edges of a crossing are looked for. -/
theorem Kept.findEdges (x : Crossing) :
    Proceeds c waiting r (r.findEdges c.program x) ∧
      ∀ site ∈ sitesOf c.program x, (r.findEdges c.program x).Resolved c.program site := by
  cases x with
  | into site =>
    obtain ⟨hn, hgrows, hclock, hmethods, hresolved⟩ := h.toNoted.resolve site
    refine ⟨⟨{ hn with methods := fun hmethod site' hsite' => ?_ }, hgrows, hclock⟩, ?_⟩
    · exact (h.methods (hmethods ▸ hmethod) site' hsite').mono hgrows
    · intro site' hsite'
      rw [mem_singleton.1 hsite']
      exact hresolved
  | outOf method =>
    simp only [Run.findEdges]
    split
    · next hmem => exact ⟨.refl h, h.methods (Std.HashSet.contains_iff_mem.1 hmem)⟩
    · obtain ⟨r₀, hr₀⟩ : ∃ r₀, r₀ = { r with resolvedMethods := r.resolvedMethods.insert method } :=
        ⟨_, rfl⟩
      have hgrows₀ : Grows r r₀ := hr₀ ▸ { Grows.refl r with }
      have hcore : r₀.Core c waiting := h.toCore.note hgrows₀ (hr₀ ▸ rfl) (hr₀ ▸ rfl)
        (by rw [hr₀]; exact .inl) (hr₀ ▸ rfl)
      -- The method is noted before its call sites are looked at, so it is the one exception so far.
      have hnoted : r₀.Noted c waiting :=
        { hcore with
          notified := fun id k q hk hq => by
            rw [hr₀] at hk hq
            exact (h.notified hk hq).mono hgrows₀
          sites := fun hsite => by
            rw [hr₀] at hsite
            exact (h.sites hsite).mono hgrows₀ }
      obtain ⟨hn, hgrows, hclock, hmethods, hresolved⟩ :=
        hnoted.foldl_resolve (c.program.callsNamed method.shortName)
      rw [← hr₀]
      refine ⟨⟨{ hn with methods := fun {method'} hmethod site hsite => ?_ },
        hgrows₀.trans hgrows, SameClock.trans (hr₀ ▸ ⟨rfl, .inl rfl⟩) hclock⟩, hresolved⟩
      rw [hmethods, hr₀] at hmethod
      rcases Std.HashSet.mem_insert.1 hmethod with heq | hmethod
      · exact hresolved site (eq_of_beq heq ▸ hsite)
      · exact (h.methods hmethod site hsite).mono (hgrows₀.trans hgrows)

/-! ### Copies of states -/

theorem Kept.copyOut (hsender : sender.index < r.solvers.size)
    (hrequester : requester.index < r.solvers.size) (q : State) :
    Proceeds c waiting r (r.copyOut sender requester q) ∧
      (r.copyOut sender requester q).CopiesOut sender requester q := by
  have hs : r.solver? sender = some r.solvers[sender.index] := Array.getElem?_eq_getElem hsender
  unfold Run.copyOut
  split
  · next hbottom =>
    rw [bottom?, hs, map_some, Option.some.injEq] at hbottom
    exact ⟨.refl h, _, hs, .inl hbottom.symm⟩
  · obtain ⟨hl, hb, hmem⟩ := leads_register h.toCore hsender (.copy sender requester q)
      [.callRule (.out q) (.request (.copy requester))] (by simp [Solver.Plain])
      (by simpa [Bound.Allows, legit, CallRequest.Legit] using hrequester)
      fun r' ⟨s, hs, hmade⟩ => ⟨s, hs, hmade _ mem_cons_self⟩
    obtain ⟨s', hs', -⟩ := hl.grows.solvers hs
    exact ⟨h.proceeds hl hb, s', hs', .inr hmem⟩

/-! ### Messages -/

theorem Kept.handleAllocation (hsender : sender.index < r.solvers.size) (node : Node)
    (label : Field) (continuation : State) :
    Proceeds c waiting r (r.handleAllocation c.program sender node label continuation) ∧
      (r.handleAllocation c.program sender node label continuation).Handled c sender
        (.allocation node label continuation) := by
  unfold Run.handleAllocation
  split
  · next hof =>
    refine ⟨.refl h, fun hn => ?_⟩
    rw [ForwardQuery.of, dif_pos hn] at hof
    cases hof
  · next q hof =>
    have hq : ∃ hn, q = ⟨node, hn⟩ := by
      unfold ForwardQuery.of at hof
      split at hof
      · next hn => exact ⟨hn, (Except.ok.inj hof).symm⟩
      · cases hof
    obtain ⟨hn, rfl⟩ := hq
    split
    · next hlabel =>
      obtain ⟨hp, hmem⟩ := h.found sender ⟨node, hn⟩
      exact ⟨hp, fun _ => ⟨fun _ => hmem, fun hne => absurd hlabel hne⟩⟩
    · next hlabel =>
      obtain ⟨hp, hid⟩ := h.withSolver (.forward ⟨node, hn⟩)
      dsimp only
      generalize r.withSolver (.forward ⟨node, hn⟩) = w at hp hid ⊢
      obtain ⟨r₁, id⟩ := w
      obtain ⟨s, hs, -⟩ := hp.kept.ids hid
      have hlt : sender.index < r₁.solvers.size := Nat.lt_of_lt_of_le hsender hp.grows.size_le
      obtain ⟨hl, hb, hmem⟩ := leads_register hp.kept.toCore (index_lt hs)
        (.storesOf id sender label continuation)
        [.fieldRule .all (.request (.storesOf sender label continuation))] (by simp [Solver.Plain])
        (by simpa [Bound.Allows, legit, FieldRequest.Legit] using hlt)
        fun r' ⟨s, hs, hmade⟩ => ⟨s, hs, hmade _ mem_cons_self⟩
      exact ⟨hp.trans (hp.kept.proceeds hl hb),
        fun _ => ⟨fun heq => absurd heq hlabel, fun _ => ⟨id, hl.grows.ids hid, hmem⟩⟩⟩

theorem Kept.handleAlias (hrequester : requester.index < r.solvers.size) (sender : SolverId)
    (store : Node) (field : Field) (other : Node) (frames : List Statement) :
    Proceeds c waiting r (r.handleAlias c.program requester store field other frames) ∧
      (r.handleAlias c.program requester store field other frames).Handled c sender
        (.aliasAt requester store field other frames) := by
  rw [handleAlias_eq]
  have hplain : ∀ x ∈ aliasChanges c.program store field other frames,
      Solver.Plain (x : Change ω) := plain_aliasChanges c.program store field other frames
  refine ⟨h.proceeds (leads_change h.toCore requester hplain
    (allows_aliasChanges _ c.program store field other frames)) ⟨⟨rfl, rfl⟩, rfl, rfl⟩, ?_⟩
  obtain ⟨s, hs, hmade⟩ := has_change h.toCore hrequester hplain
  exact ⟨s, hs, fun x hx => (hmade x hx).mono (.refl s) fun _ _ => .inr trivial⟩

theorem Kept.handleStore (hsender : sender.index < r.solvers.size)
    (hrequester : requester.index < r.solvers.size) (continuation : State) {store : Node}
    {field : Field} {value : Local} (hstore : store.stmt.action = .store store.var field value) :
    Proceeds c waiting r (r.handleStore sender requester continuation store value) ∧
      (r.handleStore sender requester continuation store value).Handled c sender
        (.storeFound requester continuation store value) := by
  have hplain : ∀ x ∈ [Change.fieldRule (.out continuation) (.popMatch ⟨store.stmt, value⟩)],
      Solver.Plain (x : Change ω) := by simp [Solver.Plain]
  have hl := leads_change h.toCore requester hplain (by simp [Bound.Allows, legit])
  have hhas := has_change h.toCore hrequester hplain
  have hsize := hl.grows.size_le
  obtain ⟨hl', hb, hmem⟩ := leads_register hl.core (Nat.lt_of_lt_of_le hsender hsize)
    (.storeContext sender requester ⟨store.stmt, value⟩)
    [.callRule (.outBy (.single store.var) store.stmt)
      (.request (.storeContext requester ⟨store.stmt, value⟩))] (by simp [Solver.Plain])
    (by simpa [Bound.Allows, legit, CallRequest.Legit] using Nat.lt_of_lt_of_le hrequester hsize)
    fun r' ⟨s, hs, hmade⟩ => ⟨s, hs, fun base field' hstore' => by
      rw [hstore] at hstore'
      cases hstore'
      exact hmade _ mem_cons_self⟩
  have hfirst := h.proceeds hl ⟨⟨rfl, rfl⟩, rfl, rfl⟩
  obtain ⟨s, hs, hmade⟩ := hhas
  obtain ⟨s', hs', hgrows⟩ := hl'.grows.solvers hs
  exact ⟨hfirst.trans (hfirst.kept.proceeds hl' hb), hmem, s', hs',
    hgrows.fieldRules (hmade _ mem_cons_self)⟩

/-- Adds a transition to a solver. -/
theorem Kept.addCall {id : SolverId} (hid : id.index < r.solvers.size) {t : CallTransition}
    (ht : t.target.var? = none) :
    Proceeds c waiting r (r.modifySolver id fun s => s.addCall t one) ∧
      (r.modifySolver id fun s => s.addCall t one).Has id fun s =>
        t ∈ s.calls.transitions := by
  have hplain : ∀ x ∈ [Change.call t (one : ω)], Solver.Plain x := fun x hx =>
    mem_singleton.1 hx ▸ ⟨ZeroFree.one_ne_zero, ht⟩
  obtain ⟨s, hs, hmade⟩ := has_change h.toCore hid hplain
  exact ⟨h.proceeds (leads_change h.toCore id hplain (by simp [Bound.Allows, legit])) ⟨⟨rfl, rfl⟩, rfl, rfl⟩,
    s, hs, hmade _ mem_cons_self⟩

end

variable (h : r.Kept c waiting) (hsender : sender.index < r.solvers.size)
include h hsender

theorem Kept.handleContext (hrequester : requester.index < r.solvers.size) (n : Node)
    (context : State) :
    Proceeds c waiting r (r.handleContext sender requester n context) ∧
      (r.handleContext sender requester n context).Handled c sender
        (.storeContext requester n context) := by
  obtain ⟨hp, hout⟩ := h.copyOut hsender hrequester context
  unfold Run.handleContext
  dsimp only
  generalize r.copyOut sender requester context = r₁ at hp hout ⊢
  have hrequester₁ := Nat.lt_of_lt_of_le hrequester hp.grows.size_le
  have hcopy := isCopy_copyOf
    (Array.getElem?_eq_getElem (Nat.lt_of_lt_of_le hsender hp.grows.size_le))
    (Array.getElem?_eq_getElem hrequester₁) context
  obtain ⟨hp', hhas⟩ := hp.kept.addCall hrequester₁
    (t := callAt n (r₁.copyOf sender requester context)) hcopy.var?_eq_none
  exact ⟨hp.trans hp', hout.mono hp'.grows, _, hcopy.mono hp'.grows, hhas⟩

theorem Kept.handleCopy (hrequester : requester.index < r.solvers.size) (t : CallTransition) :
    Proceeds c waiting r (r.handleCopy sender requester t) ∧
      (r.handleCopy sender requester t).Handled c sender (.copied requester t) := by
  obtain ⟨hp, hout⟩ := h.copyOut hsender hrequester t.source
  unfold Run.handleCopy
  dsimp only
  generalize r.copyOut sender requester t.source = r₁ at hp hout ⊢
  obtain ⟨hp₁, hout₁⟩ := hp.kept.copyOut (Nat.lt_of_lt_of_le hsender hp.grows.size_le)
    (Nat.lt_of_lt_of_le hrequester hp.grows.size_le) t.target
  generalize r₁.copyOut sender requester t.target = r₂ at hp₁ hout₁ ⊢
  have hall := hp.trans hp₁
  have hrequester₂ := Nat.lt_of_lt_of_le hrequester hall.grows.size_le
  have hcopy := isCopy_copyOf
    (Array.getElem?_eq_getElem (Nat.lt_of_lt_of_le hsender hall.grows.size_le))
    (Array.getElem?_eq_getElem hrequester₂)
  obtain ⟨hp₂, hhas⟩ := hall.kept.addCall hrequester₂
    (t := ⟨r₂.copyOf sender requester t.source, t.label, r₂.copyOf sender requester t.target⟩)
    (hcopy t.target).var?_eq_none
  exact ⟨hall.trans hp₂, (hout.mono hp₁.grows).mono hp₂.grows, hout₁.mono hp₂.grows, _, _,
    (hcopy t.source).mono hp₂.grows, (hcopy t.target).mono hp₂.grows, hhas⟩

/-- A message that is passed on brings about what it is to bring about. -/
theorem Kept.handle {m : Message} (hm : m.Legit r.solvers.size) :
    Proceeds c waiting r (r.handle c sender m) ∧ (r.handle c sender m).Handled c sender m := by
  cases m with
  | wanted x =>
    simp only [Run.handle]
    split
    · obtain ⟨hp, hresolved⟩ := h.findEdges x
      exact ⟨hp, fun _ => hresolved⟩
    · next hfly => exact ⟨.refl h, fun hfly' => absurd hfly' hfly⟩
  | fieldWrite store base field =>
    obtain ⟨hp, hid⟩ := h.withSolver (.backward ⟨⟨store.stmt, base⟩⟩)
    simp only [Run.handle]
    generalize r.withSolver (.backward ⟨⟨store.stmt, base⟩⟩) = w at hp hid ⊢
    obtain ⟨r₁, id⟩ := w
    obtain ⟨hp', hmem⟩ := hp.kept.subscribe (.fieldWrite sender store base field)
      ⟨Nat.lt_of_lt_of_le hsender hp.grows.size_le, hm⟩ id
    exact ⟨hp.trans hp', id, hp'.grows.ids hid, hmem⟩
  | allocation node label continuation =>
    exact h.handleAllocation hsender node label continuation
  | aliasAt _ store field other frames =>
    exact h.handleAlias hm.1 sender store field other frames
  | storeFound _ continuation =>
    obtain ⟨hrequester, field, hstore⟩ := hm
    exact h.handleStore hsender hrequester continuation hstore
  | storeContext _ value context =>
    exact h.handleContext hsender hm value context
  | copied _ t => exact h.handleCopy hsender hm t
  | unreachable node =>
    have hgrows : Grows r { r with phase := .unsound node } :=
      { Grows.refl r with failed := fun _ => ⟨node, rfl⟩ }
    exact ⟨h.proceeds ⟨h.toCore.note hgrows rfl rfl .inl rfl, hgrows, rfl, .inr ⟨node, rfl⟩⟩
      ⟨⟨rfl, rfl⟩, rfl, rfl⟩, node, rfl⟩

end DemandAlias.Run
