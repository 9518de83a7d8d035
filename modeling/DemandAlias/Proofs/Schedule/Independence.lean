import DemandAlias.Proofs.Run.Evaluation
import DemandAlias.Proofs.Saturation
import DemandAlias.Proofs.Schedule.Matching
import DemandAlias.Proofs.Schedule.Outline
import DemandAlias.Proofs.Schedule.Policy

/-!
# The schedule does not matter

A run at rest bounds every run of the same query: whatever the other run does, and in
whichever order, the run at rest has it already, up to the numbers of the solvers
(`Run.mirrored`, `closed_mirrored`). Two runs at rest bound each other, so they have the
same solvers with the same transitions, nodes and allocations, and the same call graph
(`Run.Agrees`, `agrees_of_rested`). As weights lead nowhere, this goes for runs with
different weights as well (`Run.Embeds`, `Scheduled.embeds`).

The numbers of solvers do depend on the schedule, and so do the transitions in which a solver
names others (`Run.renumbers_turned`).
-/

namespace DemandAlias

/-- The numbers stand for the same query. -/
def Naming.Same (N N' : Naming) (id id' : SolverId) : Prop := ∃ q, N id q ∧ N' id' q

/-- Each number stands for at most one query. -/
def Naming.Inj (N : Naming) : Prop := ∀ ⦃id q q'⦄, N id q → N id q' → q = q'

theorem RunBound.Admits.injective {ω : Type} {b : RunBound ω} {N : Naming} (h : b.Admits N) :
    N.Inj :=
  fun _ _ _ => h.inj

/-- Nothing is allowed. -/
def Bound.empty {ω : Type} : Bound ω where
  call _ := False
  field _ := False
  callRule _ _ := False
  fieldRule _ _ := False
  message _ := False
  watcher _ _ := False

namespace Run

variable {ω : Type}
variable {q : Query}

/-- What the solver `s` has, up to the numbers of solvers. -/
def mirror (c : Setting ω) (r : Run ω) (R : SolverId → SolverId → Prop) (id : SolverId)
    (s : Solver ω) : Bound ω where
  call t := ∃ t' ∈ s.calls.transitions, Transition.Matches R t t'
  field t := t ∈ s.fields.transitions
  callRule topic rule := ∃ topic' rule', s.calls.Listens topic' rule' ∧ topic.Matches R topic' ∧
    rule.Matches R rule'
  fieldRule topic rule := ∃ rule', s.fields.Listens topic rule' ∧ rule.Matches R rule'
  message m := ∃ m', r.Handled c id m' ∧ m.Matches R m'
  watcher x n := n ∈ s.reached ∧ c.scope.excludes n.stmt.method = false ∧
    x ∈ (s.flowAt c.program n).crossings

/-- The solver of the query, with its number. -/
def solverOf? (r : Run ω) (q : Query) : Option (SolverId × Solver ω) :=
  r.ids[q]?.bind fun id => (r.solver? id).map fun s => (id, s)

/-- What the run `r` has, up to the numbers of solvers, if it began with this call graph. -/
def mirrored (c : Setting ω) (graph : CallGraph) (r : Run ω) : RunBound ω where
  graph
  query q := ∃ id, r.Names id q
  solver N q := ((r.solverOf? q).map fun a => r.mirror c (N.Same r.Names) a.1 a.2).getD .empty
  edge x e := e ∈ x.edges r.graph
  allocation q a := ∃ id, r.Names id q ∧ a ∈ r.allocations.get id
  subscriber N q k := ∃ id, r.Names id q ∧ ∃ k' ∈ r.subscribers.get id,
    k.Matches (N.Same r.Names) k'

section Mirror

variable {c : Setting ω} {r : Run ω} {R R' : SolverId → SolverId → Prop} {id : SolverId}
  {s : Solver ω} {graph : CallGraph} {N : Naming}

theorem mirror_le (hR : Stronger R R') : (r.mirror c R id s).Le (r.mirror c R' id s) where
  call := fun ⟨t', ht', h⟩ => ⟨t', ht', h.mono hR⟩
  field ht := ht
  callRule := fun ⟨topic', rule', hk, h, hrule⟩ => ⟨topic', rule', hk, h.mono hR, hrule.mono hR⟩
  fieldRule := fun ⟨rule', hk, h⟩ => ⟨rule', hk, h.mono hR⟩
  message := fun ⟨m', hm', h⟩ => ⟨m', hm', h.mono hR⟩
  watcher hn := hn

theorem solver_mirrored {q : Query} (hq : r.Names id q)
    (hs : r.solver? id = some s) (N : Naming) :
    (r.mirrored c graph).solver N q = r.mirror c (N.Same r.Names) id s := by
  have hid : r.ids[q]? = some id := hq
  simp [mirrored, solverOf?, hid, hs]

theorem same_mono {N N' N₀ : Naming} (hN : N.Le N') : Stronger (N.Same N₀) (N'.Same N₀) :=
  fun _ _ h => h.imp fun _ => .imp_left (hN ·)

/-- A number that stands for one query stands for the same as at most one number of the run. -/
theorem unambiguous_same (hN : N.Inj) : Unambiguous (N.Same r.Names) := by
  rintro id a b ⟨q, hq, ha⟩ ⟨q', hq', hb⟩
  cases hN hq hq'
  exact some.inj (ha.symm.trans hb)

theorem links_mirrored (hgraph : graph.Grows r.graph) {site : Statement} {m : MethodName}
    (hm : m ∈ r.graph.callees site) : (r.mirrored c graph).Links site m := by
  rcases hgraph.callers hm with hm₀ | hsite
  · exact .inl hm₀
  · exact .inr ⟨CallGraph.Grows.mem_edges_into.2 hm, CallGraph.Grows.mem_edges_outOf.2 hsite⟩

theorem resolves_mirrored (hgraph : graph.Grows r.graph) {site : Statement}
    (h : r.Resolved c.program site) : (r.mirrored c graph).Resolves c.program N site := by
  unfold Resolved at h
  unfold RunBound.Resolves
  generalize site.call? = call at h ⊢
  rcases call with _ | ⟨m | ⟨receiver, name⟩, args⟩
  · trivial
  · exact fun hm => links_mirrored hgraph (h hm)
  · obtain ⟨id, hid, hk⟩ := h
    exact ⟨⟨id, hid⟩, id, hid, _, hk, .resolve site name⟩

/-- A change that matches one that was made is allowed. -/
theorem allows_mirror [Weight ω] (hsound : s.Sound) {sent : Message → Prop}
    (hsent : ∀ m, m ∈ s.outbox ∨ sent m → r.Handled c id m) {x x' : Change ω}
    (hx : x.Matches R x') (hmade : s.Made sent x') (hproper : s.Proper x') :
    (r.mirror c R id s).Allows x := by
  cases hx with
  | call h => exact ⟨_, hmade, h⟩
  | field => exact hmade
  | callRule h hrule => exact ⟨_, _, hmade, h, hrule⟩
  | fieldRule _ h => exact ⟨_, hmade, h⟩
  | reachByCalls | reachByFields => trivial
  | message h => exact ⟨_, hsent _ hmade, h⟩
  | callRequest _ _ h hr =>
    cases hproper
    exact ⟨_, _, hsound.callRequests hmade, h, .request hr⟩
  | fieldRequest _ _ h =>
    cases hproper
    exact ⟨_, hsound.fieldRequests hmade, .request h⟩
  | unwind h label target frames =>
    exact ⟨_, _, hsound.unwinding hmade, .outBy h label, .unwind target frames⟩

end Mirror

variable [Weight ω] [DecidableEq ω] {c : Setting ω} {r : Run ω}

/-! ### A solver that has nothing left to do -/

section Solver

variable {R : SolverId → SolverId → Prop} {id : SolverId} {s : Solver ω}

theorem Complete.allows (h : r.Complete c) (hs : r.solver? id = some s) {x x' : Change ω}
    (hx : x.Matches R x') (hmade : s.Made (r.Handled c id) x') (hproper : s.Proper x') :
    (r.mirror c R id s).Allows x :=
  allows_mirror (h.finished hs).sound (fun _ hm => h.handled hs hm) hx hmade hproper

theorem Complete.reached (h : r.Complete c) (hs : r.solver? id = some s) {n : Node} {q p : State}
    {l : Field} (hcall : (r.mirror c R id s).call (callAt n q))
    (hfield : (r.mirror c R id s).field (fieldAt n l p)) : n ∈ s.reached := by
  obtain ⟨⟨source, label, target⟩, ht', hsource, hlabel, -⟩ := hcall
  cases hlabel
  cases hsource
  exact ((h.finished hs).reached_iff n).2 ⟨⟨target, ht'⟩, l, p, hfield⟩

/-- What such a solver has leads to nothing else, however the numbers are matched. -/
theorem Complete.closed_mirror [ZeroFree ω] (hc : c.weighing.ZeroFree) (h : r.Complete c)
    (hR : Unambiguous R) (hs : r.solver? id = some s) {g : CallGraph} {s₀ : Solver ω}
    (hg : ∀ {x : Crossing} {e}, e ∈ x.edges g → e ∈ x.edges r.graph)
    (hdirection : s₀.direction = s.direction) (hseed : s₀.seed = s.seed) :
    (r.mirror c R id s).Closed c g s₀ := by
  have hf := h.finished hs
  have hbottom : s₀.bottom = s.bottom := by rw [bottom, bottom, hseed]
  have hflow : ∀ n, s₀.flowAt c.program n = s.flowAt c.program n := fun n => by
    rw [Solver.flowAt, Solver.flowAt, hdirection, hseed]
  -- What leads there to a change matches what has led here to one that matches it.
  refine ⟨?_, ?_, ?_, ?_, ?_, ?_, ?_⟩
  · -- What the rules of calls lead to.
    rintro topic rule t ⟨topic', rule', hk, htopic, hrule⟩ hmem ⟨t', ht', ht⟩ w x hx
    obtain ⟨w', hw', hdone⟩ := hf.call hk ht' (htopic.mem_topics hR ht hmem)
    rw [hbottom] at hx
    obtain ⟨x', hx', hmatch⟩ := hrule.changes c s.seed ht w w' x hx
    exact h.allows hs hmatch (hdone x' hx')
      (Solver.proper_callRuleChanges hc hf.sound hk ht' hw' s.bottom x' hx')
  · -- What the rules of fields lead to.
    rintro topic rule t ⟨rule', hk, hrule⟩ hmem ht x hx
    obtain ⟨x', hx', hmatch⟩ := hrule.changes t x hx
    exact h.allows hs hmatch (hf.field hk ht hmem x' hx')
      (Solver.proper_fieldRuleChanges ht x' hx')
  · -- What nodes lead to by their moves and effects.
    intro n q l p hcall hfield hincluded x hx
    have hmade := (hf.node (h.reached hs hcall hfield) hincluded).1
    rw [Solver.nodeChanges, hflow] at hx
    rcases mem_append.1 hx with hx' | hx'
    · obtain ⟨m, hm, hx'⟩ := mem_flatMap.1 hx'
      obtain ⟨y, hy, hmatch⟩ := m.covers_changes n x hx'
      exact h.allows hs hmatch
        (hmade y (mem_append.2 (.inl (mem_flatMap.2 ⟨m, hm, hy⟩))))
        (Solver.proper_moveChanges s n m y hy)
    · obtain ⟨e, he, hx'⟩ := mem_flatMap.1 hx'
      obtain ⟨y, hy, hmatch⟩ := e.covers_changes n x hx'
      exact h.allows hs hmatch
        (hmade y (mem_append.2 (.inr (mem_flatMap.2 ⟨e, he, hy⟩))))
        (Solver.proper_effectChanges s n e y hy)
  · intro n q l p hcall hfield hincluded x hx
    rw [hflow] at hx
    exact ⟨h.reached hs hcall hfield, hincluded, hx⟩
  · -- What edges lead to.
    rintro x n e ⟨hn, hincluded, hx⟩ he y hy
    have hmade := ((hf.node hn hincluded).2 x hx).2 e (hg he)
    rw [hdirection] at hy
    obtain ⟨m, hm, hy'⟩ := mem_flatMap.1 hy
    obtain ⟨z, hz, hmatch⟩ := m.covers_changes n y hy'
    exact h.allows hs hmatch (hmade z (mem_flatMap.2 ⟨m, hm, hz⟩))
      (Solver.proper_moveChanges s n m z hz)
  · rintro x n ⟨hn, hincluded, hx⟩
    exact ⟨.wanted x, h.handled hs ((hf.node hn hincluded).2 x hx).1, .wanted x⟩
  · -- Nothing is reported, since the run has not failed.
    intro n q l p hcall hfield hcheck hunreachable
    have hreported := hf.reported (h.reached hs hcall hfield)
    rw [Solver.IsReported, hcheck, hunreachable] at hreported
    cases hreported

end Solver

/-! ### A run that has nothing left to do -/

section Run

variable {graph : CallGraph} {N : Naming}

/-- What is copied in the run may be copied. -/
theorem Complete.copies_mirrored (h : r.Complete c) {sender' requester requester' : SolverId}
    {q : Query} (hq' : r.Names sender' q)
    (hrequester : N.Same r.Names requester requester') {state state' : State}
    (hstate : state.Matches (N.Same r.Names) state')
    (hcopies : r.CopiesOut sender' requester' state') :
    (r.mirrored c graph).Copies N q requester state := by
  obtain ⟨s, hs, hout⟩ := hcopies
  obtain ⟨hseed, -⟩ := (h.ids hq').of_solver? hs
  rcases hout with hbottom | hx
  · rw [bottom, hseed] at hbottom
    exact .inl ((hstate.eq_bottom_iff q.node).2 hbottom)
  · have hk := (h.installed hx).of_solver? hs
    refine .inr ?_
    rw [solver_mirrored hq' hs]
    exact ⟨_, _, hk, .out hstate, .request (.copy hrequester)⟩

theorem Complete.matches_copyOf (h : r.Complete c) {sender sender' requester' : SolverId}
    {q q' : Query} (hq : N sender q) (hq' : r.Names sender' q) (hrequester : r.Names requester' q')
    {state state' copy' : State} (hstate : state.Matches (N.Same r.Names) state')
    (hcopy : r.IsCopy sender' requester' state' copy') :
    (q.copyOf sender q' state).Matches (N.Same r.Names) copy' := by
  obtain ⟨s, s', hs, hs', rfl⟩ := hcopy
  obtain ⟨hseed, -⟩ := (h.ids hq').of_solver? hs
  obtain ⟨hseed', -⟩ := (h.ids hrequester).of_solver? hs'
  rw [Query.copyOf, bottom, bottom, hseed, hseed']
  by_cases hbottom : state = .bottom q.node
  · rw [if_pos hbottom, if_pos ((hstate.eq_bottom_iff q.node).1 hbottom)]
    exact State.matches_bottom _ q'.node
  · rw [if_neg hbottom, if_neg fun heq => hbottom ((hstate.eq_bottom_iff q.node).2 heq)]
    exact .imported hstate ⟨q, hq, hq'⟩

/-- Messages that match one passed on may be passed on. -/
theorem Complete.passes_mirrored [ZeroFree ω] (h : r.Complete c) (hgraph : graph.Grows r.graph)
    (hN : N.Inj) {sender sender' : SolverId} {q : Query}
    (hq : N sender q) (hq' : r.Names sender' q) {m m' : Message}
    (hhandled : r.Handled c sender' m') (hm : m.Matches (N.Same r.Names) m') {size : Nat}
    (hlegit : m.Legit size) : (r.mirrored c graph).Passes c N sender q m := by
  cases hm with
  | wanted => exact fun hfly site hsite => resolves_mirrored hgraph (hhandled hfly site hsite)
  | fieldWrite store base field =>
    obtain ⟨id, hid, hk⟩ := hhandled
    exact ⟨⟨id, hid⟩, id, hid, _, hk, .fieldWrite ⟨q, hq, hq'⟩ store base field⟩
  | allocation n label continuation =>
    refine fun hn => ⟨fun hl => ⟨sender', hq', (hhandled hn).1 hl⟩, fun hl => ?_⟩
    obtain ⟨id, hid, hx⟩ := (hhandled hn).2 hl
    obtain ⟨s, hs, hk⟩ := h.installed hx
    refine ⟨⟨id, hid⟩, ?_⟩
    rw [solver_mirrored hid hs]
    exact ⟨_, hk, .request (.storesOf ⟨q, hq, hq'⟩ label continuation)⟩
  | aliasAt hrequester store field other frames =>
    obtain ⟨q₁, hq₁, hq₁'⟩ := hrequester
    intro q₂ hq₂ x hx
    -- No number names two queries.
    cases hN hq₁ hq₂
    obtain ⟨s, hs, hmade⟩ := hhandled
    rw [solver_mirrored hq₁' hs]
    obtain ⟨x', hx', hmatch⟩ := covers_aliasChanges c.program store field other frames x hx
    have hplain := plain_aliasChanges c.program store field other frames x' hx'
    exact h.allows hs hmatch ((hmade x' hx').of_plain hplain) (hplain.proper s)
  | storeFound hrequester _ store =>
    obtain ⟨q₁, hq₁, hq₁'⟩ := hrequester
    obtain ⟨hx, s₁, hs₁, hk₁⟩ := hhandled
    refine ⟨fun q₂ hq₂ => ?_, ?_⟩
    · cases hN hq₁ hq₂
      rw [solver_mirrored hq₁' hs₁]
      exact ⟨_, hk₁, .own fun _ => nofun⟩
    · obtain ⟨s, hs, hk⟩ := h.installed hx
      obtain ⟨-, field, hstore⟩ := hlegit
      rw [solver_mirrored hq' hs]
      exact ⟨_, _, hk store.var field hstore, .outBy (.single store.var) store.stmt,
        .request (.storeContext ⟨q₁, hq₁, hq₁'⟩ _)⟩
  | storeContext hrequester value hcontext =>
    obtain ⟨hout, copy, hcopy, s₁, hs₁, hcall⟩ := hhandled
    refine ⟨h.copies_mirrored hq' hrequester hcontext hout, fun q₂ hq₂ => ?_⟩
    obtain ⟨q₁, hq₁, hq₁'⟩ := hrequester
    cases hN hq₁ hq₂
    rw [solver_mirrored hq₁' hs₁]
    exact ⟨_, hcall, Transition.matches_callAt value
      (h.matches_copyOf hq hq' hq₁' hcontext hcopy)⟩
  | copied hrequester ht =>
    obtain ⟨hsource, htarget, copy, copy', hcopy, hcopy', s₁, hs₁, hcall⟩ := hhandled
    refine ⟨h.copies_mirrored hq' hrequester ht.source hsource,
      h.copies_mirrored hq' hrequester ht.target htarget, fun q₂ hq₂ => ?_⟩
    obtain ⟨q₁, hq₁, hq₁'⟩ := hrequester
    cases hN hq₁ hq₂
    rw [solver_mirrored hq₁' hs₁]
    exact ⟨_, hcall, h.matches_copyOf hq hq' hq₁' ht.source hcopy, ht.label,
      h.matches_copyOf hq hq' hq₁' ht.target hcopy'⟩
  | unreachable => trivial

/-- Subscribers that match one there may be told of what they were told. -/
theorem Complete.notifies_mirrored (h : r.Complete c) (hgraph : graph.Grows r.graph)
    {a : ForwardQuery} {k k' : Subscriber} (hk : k.Matches (N.Same r.Names) k')
    (hnotified : r.Notified c.program a k') {size : Nat} (hlegit : k.Legit size) :
    (r.mirrored c graph).Notifies c.program N a k := by
  cases hk with
  | resolve => exact fun m hm => links_mirrored hgraph (hnotified m hm)
  | fieldWrite hrequester store base field =>
    obtain ⟨id, hid, hx⟩ := hnotified
    obtain ⟨s, hs, hinstalled⟩ := h.installed hx
    obtain ⟨hk, hrequest⟩ := hinstalled base field hlegit.2
    refine ⟨⟨id, hid⟩, ?_⟩
    rw [solver_mirrored hid hs]
    exact RunBound.forall_watchChanges ⟨_, hk, .request (.aliasesAt hrequester store base field)⟩
      ⟨_, _, (h.finished hs).sound.callRequests hrequest, .outBy (.single base) store.stmt,
        .request (.callerFrames hrequester store field [])⟩
  | aliases => exact hnotified

/-- A run that has nothing left to do bounds the runs that begin with the same call graph. -/
theorem Complete.closed_mirrored [ZeroFree ω] (hc : c.weighing.ZeroFree) (h : r.Complete c)
    (hgraph : graph.Grows r.graph) : (r.mirrored c graph).Closed c where
  solver_mono {N N'} hN q := by
    simp only [mirrored]
    cases r.solverOf? q with
    | none => exact ⟨id, id, id, id, id, id⟩
    | some => exact mirror_le (same_mono hN)
  subscriber_mono := by
    rintro N N' hN q k ⟨id, hid, k', hk', hmatch⟩
    exact ⟨id, hid, k', hk', hmatch.mono (same_mono hN)⟩
  start := by
    rintro N q ⟨id, hid⟩
    obtain ⟨s, hs, hseed, hdirection⟩ := h.ids hid
    have hstarted := h.started hs
    have hsound := (h.finished hs).sound
    rw [solver_mirrored hid hs, ← hseed]
    refine ⟨⟨_, hstarted.calls ((mem_transitions_seeded ..).2 ⟨rfl, ?_⟩),
      Transition.matches_callAt s.seed (State.matches_bottom _ s.seed)⟩,
      hstarted.fields ((mem_transitions_seeded ..).2 ⟨rfl, ?_⟩),
      ⟨_, _, hsound.callReach, .all, .reach⟩,
      _, hsound.fieldReach, .own fun _ => nofun⟩
    · exact ZeroFree.one_ne_zero
    · exact nofun
  closed := by
    rintro N q hN ⟨id, hid⟩ g s₀ hg hdirection hseed
    obtain ⟨s, hs, hseed', hdirection'⟩ := h.ids hid
    rw [solver_mirrored hid hs]
    exact h.closed_mirror hc (unambiguous_same hN.injective) hs hg
      (hdirection.trans hdirection'.symm) (hseed.trans hseed'.symm)
  message := by
    intro N sender q m size hN hq hm hlegit
    obtain ⟨sender', hq'⟩ := hN.query hq
    obtain ⟨s, hs, -⟩ := h.ids hq'
    rw [solver_mirrored hq' hs] at hm
    obtain ⟨m', hhandled, hmatch⟩ := hm
    exact h.passes_mirrored hgraph hN.injective hq hq' hhandled hmatch hlegit
  notice := by
    rintro N q k a size hN - ⟨id, hid, k', hk', hmatch⟩ hlegit ⟨id', hid', ha⟩
    cases some.inj (hid.symm.trans hid')
    exact h.notifies_mirrored hgraph hmatch (h.notified hk' ha) hlegit

end Run

/-! ### Two runs at rest -/

/-- The solvers have the same, but for the numbers of solvers, of which `R` says which stand
    for the same. -/
structure SolversAgree (R : SolverId → SolverId → Prop) (s s' : Solver ω) : Prop where
  processed : ∀ n, s.Processed n ↔ s'.Processed n
  fields : ∀ t, t ∈ s.fields.transitions ↔ t ∈ s'.fields.transitions
  calls : ∀ t ∈ s.calls.transitions, ∃ t' ∈ s'.calls.transitions, Transition.Matches R t t'
  calls_back : ∀ t' ∈ s'.calls.transitions, ∃ t ∈ s.calls.transitions, Transition.Matches R t t'

/-- The runs have solvers of the same queries, each of which has the same in both, and the
    same call graph. -/
structure Agrees (r r' : Run ω) : Prop where
  named : ∀ {id s}, r.solver? id = some s → ∃ q, r.Names id q
  named_back : ∀ {id s}, r'.solver? id = some s → ∃ q, r'.Names id q
  queries : ∀ q, (∃ id, r.Names id q) ↔ ∃ id, r'.Names id q
  solvers : ∀ {q id id' s s'}, r.Names id q → r'.Names id' q → r.solver? id = some s →
    r'.solver? id' = some s' → SolversAgree (r.Names.Same r'.Names) s s'
  allocations : ∀ {q id id'}, r.Names id q → r'.Names id' q →
    ∀ a, a ∈ r.allocations.get id ↔ a ∈ r'.allocations.get id'
  edges : ∀ (x : Crossing) e, e ∈ x.edges r.graph ↔ e ∈ x.edges r'.graph

/-- The run has a solver of the query, and `P` holds of it. -/
def HasSolver (r : Run ω) (q : Query) (P : Solver ω → Prop) : Prop :=
  ∃ id, r.Names id q ∧ r.Has id P

omit [Weight ω] [DecidableEq ω] in
theorem hasSolver_iff {r : Run ω} {id : SolverId} {s : Solver ω} (hq : r.Names id q)
    (hs : r.solver? id = some s) (P : Solver ω → Prop) : r.HasSolver q P ↔ P s := by
  refine ⟨?_, fun h => ⟨id, hq, s, hs, h⟩⟩
  rintro ⟨id', hq', s', hs', h⟩
  cases some.inj (hq.symm.trans hq')
  cases hs.symm.trans hs'
  exact h

/-- The run `r'` has all that `r` has: a solver of each of its queries, which has processed the
    same nodes, and has the same transitions and allocations, but for the numbers of solvers
    and for weights; and the same edges. -/
structure Embeds {ω' : Type} (r : Run ω) (r' : Run ω') : Prop where
  named : ∀ {id s}, r.solver? id = some s → ∃ q, r.Names id q
  queries : ∀ {id q}, r.Names id q → ∃ id', r'.Names id' q
  processed : ∀ {q n}, r.HasSolver q (·.Processed n) → r'.HasSolver q (·.Processed n)
  fields : ∀ {q t}, r.HasSolver q (t ∈ ·.fields.transitions) →
    r'.HasSolver q (t ∈ ·.fields.transitions)
  calls : ∀ {q t}, r.HasSolver q (t ∈ ·.calls.transitions) →
    ∃ t', Transition.Matches (r.Names.Same r'.Names) t t' ∧
      r'.HasSolver q (t' ∈ ·.calls.transitions)
  allocations : ∀ {q id a}, r.Names id q → a ∈ r.allocations.get id →
    ∃ id', r'.Names id' q ∧ a ∈ r'.allocations.get id'
  edges : ∀ {x : Crossing} {e}, e ∈ x.edges r.graph → e ∈ x.edges r'.graph

omit [Weight ω] [DecidableEq ω] in
/-- Runs that have all that the other one has agree. -/
theorem Embeds.agrees {r r' : Run ω} (h : r.Embeds r') (h' : r'.Embeds r) : r.Agrees r' := by
  refine ⟨h.named, h'.named, fun q => ⟨fun ⟨_, hid⟩ => h.queries hid, fun ⟨_, hid⟩ => h'.queries hid⟩,
    fun {q id id' s s'} hid hid' hs hs' => ?_, fun {q id id'} hid hid' a => ?_,
    fun x e => ⟨h.edges, h'.edges⟩⟩
  · have hiff := hasSolver_iff hid hs
    have hiff' := hasSolver_iff hid' hs'
    refine ⟨fun n => ?_, fun t => ?_, fun t ht => ?_, fun t ht => ?_⟩
    · rw [← hiff (·.Processed n), ← hiff' (·.Processed n)]
      exact ⟨h.processed, h'.processed⟩
    · rw [← hiff (t ∈ ·.fields.transitions), ← hiff' (t ∈ ·.fields.transitions)]
      exact ⟨h.fields, h'.fields⟩
    · obtain ⟨t', hmatch, ht'⟩ := h.calls ((hiff (t ∈ ·.calls.transitions)).2 ht)
      exact ⟨t', (hiff' _).1 ht', hmatch⟩
    · obtain ⟨t', hmatch, ht'⟩ := h'.calls ((hiff' (t ∈ ·.calls.transitions)).2 ht)
      exact ⟨t', (hiff _).1 ht', hmatch.symm.mono fun _ _ => .imp fun _ => And.symm⟩
  · constructor
    · intro ha
      obtain ⟨id₁, hid₁, ha₁⟩ := h.allocations hid ha
      cases some.inj (hid'.symm.trans hid₁)
      exact ha₁
    · intro ha
      obtain ⟨id₁, hid₁, ha₁⟩ := h'.allocations hid' ha
      cases some.inj (hid.symm.trans hid₁)
      exact ha₁

variable {ω' : Type} [Weight ω'] [DecidableEq ω'] {r' : Run ω'}

/-- A solver that has nothing left to do has processed what any solver has that has no more
    transitions. -/
theorem Complete.processed {c : Setting ω} {c' : Setting ω'} {R : SolverId → SolverId → Prop}
    {r : Run ω} (h : r.Complete c) (h' : r'.Complete c') {id id' : SolverId} {s : Solver ω}
    {s' : Solver ω'} (hs : r.solver? id = some s) (hs' : r'.solver? id' = some s')
    (hcalls : ∀ t ∈ s.calls.transitions, ∃ t' ∈ s'.calls.transitions, Transition.Matches R t t')
    (hfields : ∀ t ∈ s.fields.transitions, t ∈ s'.fields.transitions) {n : Node}
    (hn : s.Processed n) : s'.Processed n := by
  obtain ⟨⟨q, hq⟩, l, p, hp⟩ := ((h.finished hs).reached_iff n).1 hn.1
  refine ⟨h'.reached hs' (hcalls _ hq) (hfields _ hp), ?_⟩
  rw [(h'.finished hs').idle]
  exact not_mem_nil

/-- Solvers that have nothing left to do agree if they have the same transitions. -/
theorem Complete.solversAgree {c c' : Setting ω} {N N' : Naming} {r r' : Run ω}
    (h : r.Complete c) (h' : r'.Complete c') {id id' : SolverId} {s s' : Solver ω}
    (hs : r.solver? id = some s) (hs' : r'.solver? id' = some s')
    (hcalls : ∀ t ∈ s.calls.transitions, ∃ t' ∈ s'.calls.transitions,
      Transition.Matches (N.Same N') t t')
    (hcalls' : ∀ t' ∈ s'.calls.transitions, ∃ t ∈ s.calls.transitions,
      Transition.Matches (N'.Same N) t' t)
    (hfields : ∀ t, t ∈ s.fields.transitions ↔ t ∈ s'.fields.transitions) :
    SolversAgree (N.Same N') s s' where
  processed n := ⟨h.processed h' hs hs' hcalls fun t => (hfields t).1,
    h'.processed h hs' hs hcalls' fun t => (hfields t).2⟩
  fields := hfields
  calls := hcalls
  calls_back t' ht' := by
    obtain ⟨t, ht, hmatch⟩ := hcalls' t' ht'
    exact ⟨t, ht, hmatch.symm.mono fun _ _ => .imp fun _ => And.symm⟩

variable [ZeroFree ω] [ZeroFree ω'] {session : Session ω} {session' : Session ω'}

omit [ZeroFree ω] in
/-- Whether aliases are reported does not depend on the weights. -/
theorem aliases_mem_begin (hsame : session'.setting.outline = session.setting.outline)
    (h : .aliases ∈ (session.begin q).subscribers.get ⟨0⟩) :
    .aliases ∈ (session'.begin q).subscribers.get ⟨0⟩ := by
  cases q with
  | forward =>
    simp [Session.begin, Session.beginForward, withSolver_empty, create, get_empty] at h
  | backward q =>
    simp only [Session.begin, Session.beginBackward, Setting.options_of_outline hsame] at h ⊢
    split
    · obtain ⟨hp, -, hfirst⟩ := proceeds_withSolver session'.setting session'.graph (.backward q)
      rw [hfirst]
      exact (hp.kept.subscribe .aliases trivial ⟨0⟩).2
    · next hreport =>
      simp [if_neg hreport, withSolver_empty, create, get_empty] at h

/-- A run stays within what a run at rest has that answers the same query, up to weights, if the
    run at rest has the edges that the other one begins with. -/
theorem Scheduled.within_mirrored (hc : session.setting.weighing.ZeroFree)
    (hc' : session'.setting.weighing.ZeroFree)
    (hsame : session.setting.outline = session'.setting.outline) {r : Run ω}
    (hgraph : session.graph.Grows r'.graph) (h : Scheduled session.setting (session.begin q) r)
    (h' : Scheduled session'.setting (session'.begin q) r') (hrested : r'.Rested) :
    r.Within (r'.mirrored session'.setting session.graph).reweigh := by
  have hb := ((h'.complete hc' hrested).closed_mirrored hc' hgraph).reweigh hsame
  refine h.within hc hb rfl ?_ ⟨⟨0⟩, h'.names hc'⟩ ?_
  · exact fun {x e} he => (hgraph.edges x).subset he
  · exact fun hk N hN => ⟨⟨0⟩, h'.names hc', .aliases,
      (h'.grows hc').subscribers (aliases_mem_begin hsame.symm hk), .aliases⟩

omit [ZeroFree ω'] in
/-- A run stays within what it has in the end, also if its solvers are allowed less of it. -/
theorem Scheduled.within_narrowed (hc : session.setting.weighing.ZeroFree) {r : Run ω}
    (h : Scheduled session.setting (session.begin q) r) {solver : Naming → Query → Bound ω}
    (hb : RunBound.Closed { r.mirrored session.setting session.graph with solver } session.setting) :
    r.Within { r.mirrored session.setting session.graph with solver } := by
  refine h.within hc hb rfl ?_ ⟨⟨0⟩, h.names hc⟩ ?_
  · exact fun {x e} he => ((h.grows_graph hc).edges x).subset he
  · exact fun hk N hN => ⟨⟨0⟩, h.names hc, .aliases, (h.grows hc).subscribers hk, .aliases⟩

/-- A run at rest has all that another one has that answers the same query and begins with no
    other edges, whatever they weigh. -/
theorem Scheduled.embeds (hc : session.setting.weighing.ZeroFree)
    (hc' : session'.setting.weighing.ZeroFree)
    (hsame : session.setting.outline = session'.setting.outline) {r : Run ω}
    (hgraph : session.graph.Grows r'.graph) (h : Scheduled session.setting (session.begin q) r)
    (h' : Scheduled session'.setting (session'.begin q) r') (hrested : r.Rested)
    (hrested' : r'.Rested) : r.Embeds r' := by
  have hcomplete := h.complete hc hrested
  have hcomplete' := h'.complete hc' hrested'
  have hw := h.within_mirrored hc hc' hsame hgraph h' hrested'
  have hsolver : ∀ {q id s}, r.Names id q → r.solver? id = some s → ∃ id' s', r'.Names id' q ∧
      r'.solver? id' = some s' ∧ (∀ t ∈ s.calls.transitions, ∃ t' ∈ s'.calls.transitions,
        Transition.Matches (r.Names.Same r'.Names) t t') ∧
      ∀ t ∈ s.fields.transitions, t ∈ s'.fields.transitions := by
    intro q id s hid hs
    obtain ⟨id', hid'⟩ := hw.query hid
    obtain ⟨s', hs', -⟩ := hcomplete'.ids hid'
    have hin := hw.solver hid hs
    simp only [RunBound.reweigh, solver_mirrored hid' hs'] at hin
    exact ⟨id', s', hid', hs', fun _ => hin.call, fun _ => hin.field⟩
  refine ⟨hw.named, hw.query, ?_, ?_, ?_, ?_, hw.edge⟩
  · rintro q n ⟨id, hid, s, hs, hn⟩
    obtain ⟨id', s', hid', hs', hcalls, hfields⟩ := hsolver hid hs
    exact ⟨id', hid', s', hs', hcomplete.processed hcomplete' hs hs' hcalls hfields hn⟩
  · rintro q t ⟨id, hid, s, hs, ht⟩
    obtain ⟨id', s', hid', hs', -, hfields⟩ := hsolver hid hs
    exact ⟨id', hid', s', hs', hfields t ht⟩
  · rintro q t ⟨id, hid, s, hs, ht⟩
    obtain ⟨id', s', hid', hs', hcalls, -⟩ := hsolver hid hs
    obtain ⟨t', ht', hmatch⟩ := hcalls t ht
    exact ⟨t', hmatch, id', hid', s', hs', ht'⟩
  · intro q id a hid ha
    obtain ⟨q', hq', id', hid', ha'⟩ := hw.allocation ha
    cases hcomplete.names_inj hid hq'
    exact ⟨id', hid', ha'⟩

theorem Scheduled.agrees {session : Session ω} (hc : session.setting.weighing.ZeroFree)
    {r r' : Run ω} (h : Scheduled session.setting (session.begin q) r)
    (h' : Scheduled session.setting (session.begin q) r') (hrested : r.Rested)
    (hrested' : r'.Rested) : r.Agrees r' :=
  (h.embeds hc hc rfl (h'.grows_graph hc) h' hrested hrested').agrees
    (h'.embeds hc hc rfl (h.grows_graph hc) h hrested' hrested)

/-- Runs of the same query that come to rest agree, no matter by which schedules they do;
    the run that takes turns, if it converges, is one of them. -/
theorem agrees_of_rested (session : Session Reach) (hc : session.setting.weighing = .reach)
    (q : Query) {r : Run Reach} (h : Scheduled session.setting (session.begin q) r)
    (hrested : r.Rested) :
    (∀ r', Scheduled session.setting (session.begin q) r' → r'.Rested → r.Agrees r') ∧
      ∀ elapsed n, ((session.begin q).advance session.setting elapsed n).phase = .converged →
        r.Agrees ((session.begin q).advance session.setting elapsed n) := by
  have hfree : session.setting.weighing.ZeroFree := hc ▸ zeroFree_reach
  refine ⟨fun r' h' hrested' => h.agrees hfree h' hrested hrested', fun elapsed n hconverged => ?_⟩
  obtain ⟨r', h', hrested', heq⟩ :=
    Follows.exists_scheduled hfree (.inl .start) (orderly_begin session q).1 hconverged
  rw [heq]
  exact { h.agrees hfree h' hrested hrested' with }

/-- For a value written to a field and read through another local, a run comes to rest, and
    agrees with the one that takes turns. -/
theorem agrees_sharing :
    ∃ r, Scheduled (Sharing.setting .reach)
        ((Session.start (Sharing.setting .reach)).begin (.backward Sharing.query)) r ∧
      r.Rested ∧ r.Agrees (((Session.start (Sharing.setting .reach)).begin
        (.backward Sharing.query)).advance (Sharing.setting .reach) 0 1000) := by
  have hconverged := ((listedBy_beginBackward Sharing.query).advance 0 1000).phase.trans
    Sharing.converges_reach
  obtain ⟨r, h, hrested, -⟩ := Follows.exists_scheduled zeroFree_reach (.inl .start)
    (orderly_begin (.start (Sharing.setting .reach)) (.backward Sharing.query)).1 hconverged
  exact ⟨r, h, hrested, (agrees_of_rested (.start (Sharing.setting .reach)) rfl _ h hrested).2
    0 1000 hconverged⟩

end Run

/-! ### The numbers of solvers -/

namespace Boxes

/-- A box is filled and emptied by methods of its class. -/
def description : Description where
  classes := [{ name := "Box" }]
  methods := [
    { name := "Box.get"
      receiver := some "this"
      body := [.load "r" "this" "f", .ret (some (.var "r"))] },
    { name := "Box.set"
      receiver := some "this"
      params := ["v"]
      body := [.store "this" "f" "v"] },
    { name := "Main.main"
      body := [.new "x" "Box", .virtualCall (some "y") "a" "get" [],
        .virtualCall none "x" "set" [.var "a"], .branch "a" .eq (.const .null) 5,
        .virtualCall (some "x") "x" "get" [], .nop] }]

def getVar (name : String) : Local := ⟨⟨"Box.get"⟩, name⟩

def setVar (name : String) : Local := ⟨⟨"Box.set"⟩, name⟩

def var (name : String) : Local := ⟨⟨"Main.main"⟩, name⟩

def getActions : List Action :=
  [.assign (getVar "r") (.load (getVar "this") (.named "f")), .ret (some (.var (getVar "r")))]

def setActions : List Action :=
  [.store (setVar "this") (.named "f") (setVar "v"), .ret none]

def actions : List Action :=
  [.assign (var "x") (.alloc ⟨"Box"⟩), .assign (var "y") (.call ⟨.virtual (var "a") "get", []⟩),
    .call ⟨.virtual (var "x") "set", [.var (var "a")]⟩, .branch ⟨var "a", .eq, .const .null⟩ 5,
    .assign (var "x") (.call ⟨.virtual (var "x") "get", []⟩), .nop, .ret none]

/-- The statement at a place of the main method. -/
def stmt (index : Nat) : Statement := ⟨⟨"Main.main"⟩, index, actions[index]?.getD .nop⟩

/-- Where the field is written. -/
def store : Statement := ⟨⟨"Box.set"⟩, 0, .store (setVar "this") (.named "f") (setVar "v")⟩

def program : Program where
  classes := [⟨⟨"Box"⟩, none⟩]
  methods := [.ofActions ⟨"Box.get"⟩ (some (getVar "this")) [] getActions,
    .ofActions ⟨"Box.set"⟩ (some (setVar "this")) [setVar "v"] setActions,
    .ofActions ⟨"Main.main"⟩ none [] actions]
  unreachable := []

theorem resolve_description : description.resolve = .ok program :=
  Description.resolve_inOrder rfl rfl rfl (by decide) (by decide)

def options : Options := { timeout := none, onTheFly := true }

def setting : Setting Reach := ⟨program, .everything, .reach, options⟩

/-- What is in the box at the end? -/
def query : BackwardQuery := ⟨⟨stmt 5, var "x"⟩⟩

/-- The run of the query that begins with these edges. -/
def listing (edges : List CallEdge) : Run.Listing Reach :=
  (Run.Listing.begin setting edges (.backward query)).advance setting 0 1000

/-- The edges found by the first run. -/
def edges : List CallEdge := [⟨stmt 4, ⟨"Box.get"⟩⟩, ⟨stmt 2, ⟨"Box.set"⟩⟩]

/-- The written value, in the calling context of the store as the solver with this number has it. -/
def written (id : SolverId) : CallTransition :=
  callAt ⟨store, setVar "v"⟩
    (.generated (Solver.frameOf ⟨store, setVar "this"⟩) (.imported id))

/-- In the first run, the context of the store comes from the third solver. -/
theorem listing_first : (listing []).phase = .converged ∧ (listing []).edges = edges ∧
    ((listing []).solver? ⟨0⟩).any fun s => s.calls.transitions.contains (written ⟨2⟩) := by
  decide +kernel

/-- The run in which it is the turn of the second solver after three ticks. -/
def turned : Run.Listing Reach :=
  { (Run.Listing.begin setting [] (.backward query)).advance setting 0 3 with
    turn := ⟨1, 0, true⟩ }.advance setting 0 1000

theorem listing_turned : turned.phase = .converged ∧
    (turned.solver? ⟨0⟩).any fun s => !s.calls.transitions.contains (written ⟨2⟩) := by
  decide +kernel

end Boxes

/-- What a solver has is only the same up to the numbers of solvers: if solvers take turns, the
    value in the box is found in a calling context that comes from the third solver, and if the
    second solver gets its turn earlier, the context comes from another one. -/
theorem Run.renumbers_turned : Boxes.description.resolve = .ok Boxes.program ∧
    ∃ r₀ r r', r₀ = (Session.start Boxes.setting).begin (.backward Boxes.query) ∧
      Scheduled Boxes.setting r₀ r ∧ r.Rested ∧ Scheduled Boxes.setting r₀ r' ∧ r'.Rested ∧
      r.HasSolver (.backward Boxes.query) (Boxes.written ⟨2⟩ ∈ ·.calls.transitions) ∧
      r'.HasSolver (.backward Boxes.query) (Boxes.written ⟨2⟩ ∉ ·.calls.transitions) := by
  obtain ⟨hphase, -, hfirst⟩ := Boxes.listing_first
  obtain ⟨hphase', hturned⟩ := Boxes.listing_turned
  have ho := (orderly_begin (.start Boxes.setting) (.backward Boxes.query)).1
  have hlisted : ((Session.start Boxes.setting).begin (.backward Boxes.query)).ListedBy
    (.begin Boxes.setting [] (.backward Boxes.query)) := listedBy_begin CallGraph.listedBy_empty _
  obtain ⟨r, h, hrested, heq⟩ := Follows.exists_scheduled zeroFree_reach (.inl .start) ho
    ((hlisted.advance 0 1000).phase.trans hphase)
  have hr := heq ▸ hlisted.advance 0 1000
  -- In a round in which a step was made, it may be the turn of any solver.
  have hturn := (Follows.advance zeroFree_reach (.inl .start) ho 0 3).imp
    (·.turn ⟨1, 0, true⟩) (·.turn ⟨1, 0, true⟩)
  have ho' := (ho.advance zeroFree_reach 0 3).orderly
  have hlisted' := ((hlisted.advance (c := Boxes.setting) 0 3).withTurn ⟨1, 0, true⟩).advance
    (c := Boxes.setting) 0 1000
  obtain ⟨r', h', hrested', heq'⟩ := Follows.exists_scheduled zeroFree_reach hturn
    { ho' with behind := fun h => by cases h } (hlisted'.phase.trans hphase')
  have hr' := heq' ▸ hlisted'
  refine ⟨Boxes.resolve_description, _, r, r', rfl, h, hrested, h', hrested', ?_, ?_⟩
  · exact ⟨⟨0⟩, h.names zeroFree_reach, hr.has_call hfirst⟩
  · exact ⟨⟨0⟩, h'.names zeroFree_reach, hr'.lacks_call hturned⟩

end DemandAlias
