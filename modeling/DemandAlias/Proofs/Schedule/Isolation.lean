import DemandAlias.Proofs.Schedule.Independence

/-!
# Asked by itself or on behalf of another

A query may be raised in the run of another one, where there are solvers that its own run
does not have. Those may listen to its solvers, but what they hear is sent to themselves,
and nothing that they do changes the automata of a solver they listen to. So a run at rest
bounds what the solvers of its queries have in any run (`Run.isolated`,
`Complete.closed_isolated`), and the solver of a forward query has the same whether the
query is asked by itself or raised for another (`Scheduled.solversAgree`).

The call graph is one that is not found on the fly, as such a one is shared by all solvers.
-/

namespace DemandAlias

variable {q : Query} {P P' : SolverId → Prop} {m : Message} {sender : SolverId} {N : Naming}
  {id : SolverId}

/-! ### Working for others -/

/-- The request is made by a solver of which `P` holds. -/
def FieldRequest.MadeBy (P : SolverId → Prop) : FieldRequest → Prop
  | .allocation _ => False
  | .aliasesAt requester _ _ _ | .returnAlias requester _ _ _ | .storesOf requester _ _ =>
    P requester

/-- The message is for a solver of which `P` holds. -/
def Message.IsFor (P : SolverId → Prop) : Message → Prop
  | .wanted _ | .fieldWrite _ _ _ | .allocation _ _ _ | .unreachable _ => False
  | .aliasAt requester _ _ _ _ | .storeFound requester _ _ _ | .storeContext requester _ _
  | .copied requester _ => P requester

theorem FieldRequest.MadeBy.mono (hP : ∀ {id}, P id → P' id) {r : FieldRequest} (h : r.MadeBy P) :
    r.MadeBy P' := by
  cases r with
  | allocation => exact h
  | aliasesAt _ _ _ _ | returnAlias _ _ _ _ | storesOf _ _ _ => exact hP h

theorem Message.IsFor.mono (hP : ∀ {id}, P id → P' id) (h : m.IsFor P) : m.IsFor P' := by
  cases m with
  | wanted _ | fieldWrite _ _ _ | allocation _ _ _ | unreachable _ => exact h
  | aliasAt _ _ _ _ _ | storeFound _ _ _ _ | storeContext _ _ _ | copied _ _ => exact hP h

namespace Bound

variable {ω : Type}

/-- Nothing but the requests of solvers of which `P` holds, and what is sent to them. -/
def serving (P : SolverId → Prop) : Bound ω where
  call _ := False
  field _ := False
  callRule _ rule := ∃ r, rule = .request r ∧ P r.requester
  fieldRule _ rule := ∃ r, rule = .request r ∧ r.MadeBy P
  message m := m.IsFor P
  watcher _ _ := False

/-- What either bound allows. -/
def join (b b' : Bound ω) : Bound ω where
  call t := b.call t ∨ b'.call t
  field t := b.field t ∨ b'.field t
  callRule topic rule := b.callRule topic rule ∨ b'.callRule topic rule
  fieldRule topic rule := b.fieldRule topic rule ∨ b'.fieldRule topic rule
  message m := b.message m ∨ b'.message m
  watcher x n := b.watcher x n ∨ b'.watcher x n

theorem le_join_left (b b' : Bound ω) : b.Le (b.join b') := ⟨.inl, .inl, .inl, .inl, .inl, .inl⟩

theorem le_join_right (b b' : Bound ω) : b'.Le (b.join b') := ⟨.inr, .inr, .inr, .inr, .inr, .inr⟩

theorem Le.join {b₁ b₁' b₂ b₂' : Bound ω} (h₁ : b₁.Le b₁') (h₂ : b₂.Le b₂') :
    (b₁.join b₂).Le (b₁'.join b₂') where
  call := .imp h₁.call h₂.call
  field := .imp h₁.field h₂.field
  callRule := .imp h₁.callRule h₂.callRule
  fieldRule := .imp h₁.fieldRule h₂.fieldRule
  message := .imp h₁.message h₂.message
  watcher := .imp h₁.watcher h₂.watcher

section Serving

/-- What a solver does for another only is for the other. -/
theorem allows_serving_callRequest (p : Program) (bottom : State) {r : CallRequest}
    (h : P r.requester) (t : CallTransition) :
    ∀ x ∈ r.changes p bottom t, (serving P : Bound ω).Allows x := by
  intro x hx
  cases CallRequest.yields_of_mem hx with
  | search | sites | deeper | returnAlias => exact ⟨_, rfl, h⟩
  | storeContext | copied => exact h

theorem allows_serving_fieldRequest {r : FieldRequest} (h : r.MadeBy P) (t : FieldTransition) :
    ∀ x ∈ r.changes t, (serving P : Bound ω).Allows x := by
  intro x hx
  cases FieldRequest.yields_of_mem hx with
  | allocation => exact h.elim
  | aliasAt | returnAlias | storeFound => exact h

/-- A solver that serves others has no more for it. -/
theorem Closed.join_serving [Weight ω] {b : Bound ω} {c : Setting ω} {g : CallGraph}
    {s : Solver ω} (h : b.Closed c g s) : (b.join (serving P)).Closed c g s where
  callRules := by
    rintro topic rule t (hrule | ⟨r, rfl, hr⟩) hmem ht w x hx
    · exact (le_join_left b _).allows (h.callRules hrule hmem (ht.resolve_right id) w x hx)
    · exact (le_join_right b _).allows (allows_serving_callRequest _ _ hr t x hx)
  fieldRules := by
    rintro topic rule t (hrule | ⟨r, rfl, hr⟩) hmem ht x hx
    · exact (le_join_left b _).allows (h.fieldRules hrule hmem (ht.resolve_right id) x hx)
    · exact (le_join_right b _).allows (allows_serving_fieldRequest hr t x hx)
  nodes hcall hfield hincluded x hx := (le_join_left b _).allows
    (h.nodes (hcall.resolve_right id) (hfield.resolve_right id) hincluded x hx)
  crossings hcall hfield hincluded x hx :=
    .inl (h.crossings (hcall.resolve_right id) (hfield.resolve_right id) hincluded x hx)
  edges hx he y hy := (le_join_left b _).allows (h.edges (hx.resolve_right id) he y hy)
  wanted hx := .inl (h.wanted (hx.resolve_right id))
  unreachable hcall hfield hcheck hunreachable :=
    .inl (h.unreachable (hcall.resolve_right id) (hfield.resolve_right id) hcheck hunreachable)

end Serving

end Bound

/-! ### Bounds of runs that allow more -/

namespace RunBound

variable {ω : Type} {b b' : RunBound ω} (h : b.Le b')

include h

theorem Links.of_le {site : Statement} {m : MethodName} (hlinks : b.Links site m) :
    b'.Links site m :=
  hlinks.imp (fun hm => h.graph ▸ hm) fun he => ⟨h.edge he.1, h.edge he.2⟩

theorem Resolves.of_le {p : Program} {site : Statement} (hresolves : b.Resolves p N site) :
    b'.Resolves p N site := by
  unfold Resolves at hresolves ⊢
  generalize site.call? = call at hresolves ⊢
  rcases call with _ | ⟨m | ⟨receiver, name⟩, args⟩
  · trivial
  · exact fun hm => .of_le h (hresolves hm)
  · exact ⟨h.query hresolves.1, h.subscriber hresolves.2⟩

theorem Copies.of_le {requester : SolverId} {state : State}
    (hcopies : b.Copies N q requester state) : b'.Copies N q requester state :=
  hcopies.imp_right (h.solver N q).callRule

theorem Passes.of_le {c : Setting ω} (hpasses : b.Passes c N sender q m) :
    b'.Passes c N sender q m := by
  cases m with
  | wanted => exact fun hfly site hsite => .of_le h (hpasses hfly site hsite)
  | fieldWrite => exact ⟨h.query hpasses.1, h.subscriber hpasses.2⟩
  | allocation =>
    intro hn
    obtain ⟨hfound, hstores⟩ := hpasses hn
    refine ⟨fun hl => h.allocation (hfound hl), fun hl => ?_⟩
    exact ⟨h.query (hstores hl).1, (h.solver N _).fieldRule (hstores hl).2⟩
  | aliasAt =>
    exact fun q' hq' x hx => (h.solver N q').allows (hpasses q' hq' x hx)
  | storeFound =>
    exact ⟨fun q' hq' => (h.solver N q').fieldRule (hpasses.1 q' hq'),
      (h.solver N q).callRule hpasses.2⟩
  | storeContext =>
    exact ⟨.of_le h hpasses.1, fun q' hq' => (h.solver N q').call (hpasses.2 q' hq')⟩
  | copied =>
    exact ⟨.of_le h hpasses.1, .of_le h hpasses.2.1,
      fun q' hq' => (h.solver N q').call (hpasses.2.2 q' hq')⟩
  | unreachable => trivial

theorem Notifies.of_le {p : Program} {a : ForwardQuery} {k : Subscriber}
    (hnotifies : b.Notifies p N a k) : b'.Notifies p N a k := by
  cases k with
  | resolve => exact fun m hm => .of_le h (hnotifies m hm)
  | fieldWrite =>
    exact ⟨h.query hnotifies.1, fun x hx => (h.solver N _).allows (hnotifies.2 x hx)⟩
  | aliases => exact h.query hnotifies

end RunBound

/-! ### Runs with other solvers -/

/-- The number stands for a query for which `N'` has none. -/
def Naming.Beyond (N N' : Naming) (id : SolverId) : Prop := ∃ q, N id q ∧ ∀ id', ¬N' id' q

theorem Naming.Beyond.mono {N₁ N₂ N' : Naming} (hN : N₁.Le N₂) (h : N₁.Beyond N' id) :
    N₂.Beyond N' id :=
  h.imp fun _ => .imp_left (hN ·)

namespace Run

variable {ω : Type}

/-- What a run may have if the solvers of the queries of `r` have no more than they have
    there, except that they serve others. -/
def isolated (c : Setting ω) (graph : CallGraph) (r : Run ω) : RunBound ω where
  graph
  query _ := True
  solver N q :=
    (((r.solverOf? q).map fun a => r.mirror c (N.Same r.Names) a.1 a.2).getD (legit 0)).join
      (.serving (N.Beyond r.Names))
  edge x e := e ∈ x.edges r.graph
  allocation q a := ∀ id, r.Names id q → a ∈ r.allocations.get id
  subscriber N q k := (r.mirrored c graph).subscriber N q k ∨ k = .aliases ∨
    ∃ requester store base field, k = .fieldWrite requester store base field ∧
      N.Beyond r.Names requester

section Isolated

variable {c : Setting ω} {r : Run ω} {graph : CallGraph}

theorem solver_isolated {s : Solver ω} (hq : r.Names id q) (hs : r.solver? id = some s)
    (N : Naming) :
    (r.isolated c graph).solver N q =
      (r.mirror c (N.Same r.Names) id s).join (.serving (N.Beyond r.Names)) := by
  have hid : r.ids[q]? = some id := hq
  simp [isolated, solverOf?, hid, hs]

/-- The solver of a query that the run does not have may have anything of its own. -/
theorem solver_isolated_beyond (hq : ∀ id, ¬r.Names id q) (N : Naming) :
    (r.isolated c graph).solver N q = (legit 0).join (.serving (N.Beyond r.Names)) := by
  have hid : r.ids[q]? = none := Option.eq_none_iff_forall_ne_some.2 hq
  simp [isolated, solverOf?, hid]

theorem mirrored_le_isolated : (r.mirrored c graph).Le (r.isolated c graph) where
  graph := rfl
  query _ := trivial
  solver N q := by
    simp only [mirrored, isolated]
    cases r.solverOf? q with
    | none => exact ⟨False.elim, False.elim, False.elim, False.elim, False.elim, False.elim⟩
    | some => exact Bound.le_join_left _ _
  edge he := he
  allocation := by
    rintro q a ⟨id, hid, ha⟩ id' hid'
    cases some.inj (hid.symm.trans hid')
    exact ha
  subscriber := .inl

/-- What is sent to a solver of another query is nothing to the solvers of the run. -/
theorem passes_isolated_of_isFor (hN : N.Inj) (hm : m.IsFor (N.Beyond r.Names)) :
    (r.isolated c graph).Passes c N sender q m := by
  -- The solver it is sent to may have anything of its own.
  have hbeyond : ∀ {requester q'}, N.Beyond r.Names requester → N requester q' →
      (legit 0).Le ((r.isolated c graph).solver N q') := by
    rintro requester q' ⟨q₁, hq₁, hnone⟩ hq'
    cases hN hq₁ hq'
    rw [solver_isolated_beyond hnone]
    exact Bound.le_join_left _ _
  have hserves : ∀ {topic r'}, N.Beyond r.Names r'.requester →
      ((r.isolated c graph).solver N q).callRule topic (.request r') :=
    fun hr => .inr ⟨_, rfl, hr⟩
  cases m with
  | wanted _ | fieldWrite _ _ _ | allocation _ _ _ | unreachable _ => exact hm.elim
  | aliasAt _ store field other frames =>
    exact fun q' hq' x hx =>
      (hbeyond hm hq').allows (allows_aliasChanges 0 c.program store field other frames x hx)
  | storeFound =>
    refine ⟨fun q' hq' => (hbeyond hm hq').fieldRule ?_, hserves hm⟩
    rintro r' ⟨⟩
  | storeContext =>
    exact ⟨.inr (hserves hm), fun q' hq' => (hbeyond hm hq').call trivial⟩
  | copied =>
    exact ⟨.inr (hserves hm), .inr (hserves hm), fun q' hq' => (hbeyond hm hq').call trivial⟩

/-- What the solver of another query sends on its own account makes the solvers of the run
    serve it. -/
theorem passes_isolated_of_beyond (hresolved : c.options.onTheFly = false) (hq : N sender q)
    (hnone : ∀ id, ¬r.Names id q) (hm : (legit (ω := ω) 0).message m) :
    (r.isolated c graph).Passes c N sender q m := by
  have hsender : N.Beyond r.Names sender := ⟨q, hq, hnone⟩
  cases m with
  | wanted =>
    intro hfly
    rw [hresolved] at hfly
    cases hfly
  | fieldWrite store base field =>
    exact ⟨trivial, .inr (.inr ⟨sender, store, base, field, rfl, hsender⟩)⟩
  | allocation =>
    exact fun hn => ⟨fun _ id hid => absurd hid (hnone id),
      fun _ => ⟨trivial, .inr ⟨_, rfl, hsender⟩⟩⟩
  | aliasAt | storeFound => exact absurd hm.1 (Nat.not_lt_zero _)
  | storeContext | copied => exact absurd hm (Nat.not_lt_zero _)
  | unreachable => trivial

end Isolated

variable [Weight ω] [DecidableEq ω] {c : Setting ω} {r : Run ω} {graph : CallGraph}

/-- A run that has nothing left to do bounds what its solvers have in other runs. -/
theorem Complete.closed_isolated [ZeroFree ω] (hc : c.weighing.ZeroFree)
    (hresolved : c.options.onTheFly = false) (h : r.Complete c) (hgraph : graph.Grows r.graph) :
    (r.isolated c graph).Closed c where
  solver_mono {N N'} hN q := by
    refine .join ?_ ⟨id, id, fun h => h.imp fun _ => .imp_right (.mono hN),
      fun h => h.imp fun _ => .imp_right (.mono (.mono hN)), .mono (.mono hN), id⟩
    cases r.solverOf? q with
    | none => exact ⟨id, id, id, id, id, id⟩
    | some => exact mirror_le (same_mono hN)
  subscriber_mono {N N'} hN {q k} hk := by
    refine hk.imp ((h.closed_mirrored hc hgraph).subscriber_mono hN) (.imp_right ?_)
    rintro ⟨requester, store, base, field, rfl, hbeyond⟩
    exact ⟨requester, store, base, field, rfl, hbeyond.mono hN⟩
  start {N q} _ := by
    by_cases hq : ∃ id, r.Names id q
    · have hle : ((r.mirrored c graph).solver N q).Le ((r.isolated c graph).solver N q) :=
        mirrored_le_isolated.solver N q
      obtain ⟨hcall, hfield, hcalls, hfields⟩ := (h.closed_mirrored hc hgraph).start hq
      exact ⟨hle.call hcall, hle.field hfield, hle.callRule hcalls, hle.fieldRule hfields⟩
    · rw [solver_isolated_beyond (not_exists.1 hq)]
      refine ⟨.inl trivial, .inl trivial, .inl ?_, .inl ?_⟩ <;> rintro r' ⟨⟩
  closed {N q} hN _ {g s₀} hg hdirection hseed := by
    by_cases hq : ∃ id, r.Names id q
    · obtain ⟨id, hid⟩ := hq
      obtain ⟨s, hs, hseed', hdirection'⟩ := h.ids hid
      rw [solver_isolated hid hs]
      exact (h.closed_mirror hc (unambiguous_same hN.injective) hs hg
        (hdirection.trans hdirection'.symm) (hseed.trans hseed'.symm)).join_serving
    · rw [solver_isolated_beyond (not_exists.1 hq)]
      exact (legit_closed c g s₀ 0).join_serving
  message {N sender q m size} hN hq hm hlegit := by
    -- A solver that the run does not have does what it can without any others.
    by_cases hnamed : ∃ id, r.Names id q
    · obtain ⟨sender', hq'⟩ := hnamed
      obtain ⟨s, hs, -⟩ := h.ids hq'
      rw [solver_isolated hq' hs] at hm
      rcases hm with ⟨m', hhandled, hmatch⟩ | hm
      · exact .of_le mirrored_le_isolated
          (h.passes_mirrored hgraph hN.injective hq hq' hhandled hmatch hlegit)
      · exact passes_isolated_of_isFor hN.injective hm
    · rw [solver_isolated_beyond (not_exists.1 hnamed)] at hm
      rcases hm with hm | hm
      · exact passes_isolated_of_beyond hresolved hq (not_exists.1 hnamed) hm
      · exact passes_isolated_of_isFor hN.injective hm
  notice {N q k a size} _ _ hk hlegit ha := by
    rcases hk with ⟨id, hid, k', hk', hmatch⟩ | rfl | ⟨requester, store, base, field, rfl, hbeyond⟩
    · exact .of_le mirrored_le_isolated
        (h.notifies_mirrored hgraph hmatch (h.notified hk' (ha id hid)) hlegit)
    · exact trivial
    · refine ⟨trivial, fun x hx => ?_⟩
      rcases mem_cons.1 hx with rfl | hx
      · exact .inr ⟨_, rfl, hbeyond⟩
      · rw [mem_singleton.1 hx]
        exact .inr ⟨_, rfl, hbeyond⟩

/-! ### One query, two runs -/

variable [ZeroFree ω]

/-- The solver of a forward query has the same at the end of its own run as at the end of
    another run in which it is raised. -/
theorem Scheduled.solversAgree {session : Session ω} (hc : session.setting.weighing.ZeroFree)
    (hresolved : session.setting.options.onTheFly = false) {a : ForwardQuery} {r r' : Run ω}
    (h : Scheduled session.setting (session.begin (.forward a)) r)
    (h' : Scheduled session.setting (session.begin q) r') (hrested : r.Rested)
    (hrested' : r'.Rested) (hid : r'.Names id (.forward a)) {s s' : Solver ω}
    (hs : r.solver? ⟨0⟩ = some s) (hs' : r'.solver? id = some s') :
    SolversAgree (r.Names.Same r'.Names) s s' := by
  have hcomplete := h.complete hc hrested
  have hcomplete' := h'.complete hc hrested'
  have hnames := h.names hc
  have hgraph := h.grows_graph hc
  have hgraph' := h'.grows_graph hc
  -- What its own run has, the other one has.
  have hb' := hcomplete'.closed_mirrored hc hgraph'
  have hw : r.Within (r'.mirrored session.setting session.graph) := by
    refine h.within hc hb' rfl ?_ ⟨id, hid⟩ ?_
    · exact fun {x e} he => (hgraph'.edges x).subset he
    · intro hk
      simp [Session.begin, Session.beginForward, withSolver_empty, create, get_empty] at hk
  have hin := hw.solver hnames hs
  rw [solver_mirrored hid hs'] at hin
  -- What the other one has for the query, its own run has.
  have hb := hcomplete.closed_isolated hc hresolved hgraph
  have hw' : r'.Within (r.isolated session.setting session.graph) := by
    refine h'.within hc hb rfl ?_ trivial ?_
    · exact fun {x e} he => (hgraph.edges x).subset he
    · exact fun _ _ _ => .inr (.inl rfl)
  have hin' := hw'.solver hid hs'
  rw [solver_isolated hnames hs] at hin'
  exact hcomplete.solversAgree hcomplete' hs hs' (fun _ => hin.call)
    (fun _ ht => (hin'.call ht).resolve_right False.elim)
    fun _ => ⟨hin.field, fun ht => (hin'.field ht).resolve_right False.elim⟩

end Run

end DemandAlias
