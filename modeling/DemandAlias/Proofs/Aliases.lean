import DemandAlias.Proofs.Context.Confirmation
import DemandAlias.Proofs.Schedule.Grounding
import DemandAlias.Proofs.Schedule.Isolation
import DemandAlias.Proofs.Termination.Finiteness

/-!
# Whether a local is among its own aliases

The allocations that a backward query finds come from one solver, and the aliases that it
reports come from the solvers that follow these allocations forward. So the local that was
asked about need not be among its aliases: it is if and only if one of the forward queries
of the allocations found, asked by itself, gets to it (`Session.self_mem_aliases`). In
programs that do not access fields one always does. An object that holds itself is read
from itself, but no further (`Session.self_not_mem_aliases`).

Both directions compare the solver of an allocation in the run of the backward query with
the one in the run of the forward query (`Scheduled.solversAgree`). The forward query
reports what has a stack of calls that is accepted, which is all its solver gets to
(`Scheduled.grounded`).
-/

namespace DemandAlias

open Solver

variable {a : ForwardQuery} {ω : Type} {c : Setting Reach} {q : BackwardQuery} {r : Run Reach}
  {s : Solver ω} {id : SolverId}

/-! ### Where the object is found -/

/-- The solver has got to the node, and found that it holds the object itself. -/
def Solver.Finds {ω : Type} (s : Solver ω) (n : Node) : Prop :=
  n ∈ s.reached ∧ s.holdsDirectly n = true

/-- The solver that follows the object has found it at the node. -/
def Run.Finds {ω : Type} (r : Run ω) (a : ForwardQuery) (n : Node) : Prop :=
  ∃ id s, r.Names id (.forward a) ∧ r.solver? id = some s ∧ s.Finds n

theorem Run.finds_iff {r : Run ω} (hid : r.Names id (.forward a)) (hs : r.solver? id = some s)
    (n : Node) : r.Finds a n ↔ s.Finds n := by
  constructor
  · rintro ⟨id₁, s₁, hid₁, hs₁, hfinds⟩
    cases some.inj (hid.symm.trans hid₁)
    cases some.inj (hs.symm.trans hs₁)
    exact hfinds
  · exact fun hfinds => ⟨id, s, hid, hs, hfinds⟩

namespace Run

theorem mem_aliasesAt_iff [Weight ω] [DecidableEq ω] (r : Run ω) (stmt : Statement)
    (allocations : List ForwardQuery) (path : AccessPath) :
    path ∈ r.aliasesAt stmt allocations ↔ ∃ a ∈ allocations, ∃ id s,
      r.Names id (.forward a) ∧ r.solver? id = some s ∧ path ∈ s.accessPathsAt stmt := by
  simp only [aliasesAt, mem_sortedUnique, mem_flatMap]
  refine exists_congr fun a => and_congr_right fun _ => ?_
  constructor
  · intro hpath
    split at hpath
    · next s hs =>
      obtain ⟨id, hid, hs⟩ := bind_eq_some_iff.1 hs
      exact ⟨id, s, hid, hs, hpath⟩
    · cases hpath
  · rintro ⟨id, s, hid, hs, hpath⟩
    have hsolver : (r.ids[Query.forward a]? >>= r.solver?) = some s :=
      bind_eq_some_iff.2 ⟨id, hid, hs⟩
    rw [hsolver]
    exact hpath

/-- A solver that has nothing left to do finds what one finds that agrees with it. -/
theorem SolversAgree.finds_iff {R : SolverId → SolverId → Prop} {r r' : Run Reach}
    {s s' : Solver Reach} (h : SolversAgree R s s') (hr : r.Complete c) (hr' : r'.Complete c)
    {id' : SolverId} (hs : r.solver? id = some s) (hs' : r'.solver? id' = some s') (n : Node) :
    s.Finds n ↔ s'.Finds n := by
  have hidle : ∀ {r : Run Reach} {id s}, r.Complete c → r.solver? id = some s →
      (n ∈ s.reached ↔ s.Processed n) := fun hr hs => by
    rw [Processed, (hr.finished hs).idle]
    exact (and_iff_left not_mem_nil).symm
  rw [Solver.Finds, Solver.Finds, hidle hr hs, hidle hr' hs', h.processed,
    holdsDirectly_iff (hr.finished hs).sound.fields,
    holdsDirectly_iff (hr'.finished hs').sound.fields]
  simp only [h.fields]

end Run

/-! ### Runs at rest -/

namespace Run.Scheduled

variable {session : Session Reach} (hweighing : session.setting.weighing = .reach)

include hweighing

/-- At the end of its run, a forward query reports where its solver has found the object. -/
theorem mem_table_iff (h : Scheduled session.setting (session.begin (.forward a)) r)
    (hrested : r.Rested) {s : Solver Reach} (hs : r.solver? ⟨0⟩ = some s) (n : Node) :
    n ∈ (tableOf session.setting s a).map (·.1) ↔ r.Finds a n := by
  have hfree : session.setting.weighing.ZeroFree := hweighing ▸ zeroFree_reach
  have hnames := h.names hfree
  have hcomplete := h.complete hfree hrested
  have hfinished := hcomplete.finished hs
  rw [Pushdown.mem_tableOf_iff hweighing, mem_nodeWeights_iff hfinished.sound.calls,
    Run.finds_iff hnames hs, Solver.Finds]
  refine and_congr_left fun _ => and_iff_left_of_imp fun hn => ?_
  -- Wherever it got to, it has a stack of calls that it accepts.
  obtain ⟨⟨q, hq⟩, -⟩ := (hfinished.reached_iff n).1 hn
  have hfinal : s.bottom ∈ s.calls.final := by
    rw [(hcomplete.started hs).final]
    exact (Automaton.mem_final_seeded ..).2 rfl
  exact ⟨q, hq, (h.grounded hfree hrested hs hq).accepts hfinal⟩

/-- The local asked about is an alias if the solver of an allocation has found the object in it. -/
theorem self_mem_aliasesAt_iff {p : Program} (hprogram : session.setting.program = p)
    (hp : p.IsLaidOut) (hnamed : p.FieldsNamed) (hgraph : p.Builds session.graph)
    (hq : q.node.stmt ∈ p.statements)
    (h : Scheduled session.setting (session.begin (.backward q)) r) (hrested : r.Rested)
    (allocations : List ForwardQuery) :
    ⟨q.node.var, []⟩ ∈ r.aliasesAt q.node.stmt allocations ↔
      ∃ a ∈ allocations, r.Finds a q.node := by
  have hfree : session.setting.weighing.ZeroFree := hweighing ▸ zeroFree_reach
  have hcomplete := h.complete hfree hrested
  have hw : r.Within ((Vocabulary.asking p q.node.var).bound session.graph) := by
    have hb := Vocabulary.closed_bound (c := session.setting) (V := .asking p q.node.var)
      (hprogram ▸ hp.spans) session.graph
    exact h.within hfree hb rfl (fun he => hgraph.edges he) ⟨hq, mem_cons_self⟩
      fun _ _ _ => trivial
  rw [mem_aliasesAt_iff]
  refine exists_congr fun a => and_congr_right fun _ => exists_congr fun id =>
    exists_congr fun s => and_congr_right fun hid => and_congr_right fun hs => ?_
  -- A local is an access path to the object where it is found to hold it.
  have hfields := (hcomplete.finished hs).sound.fields
  rw [mem_accessPathsAt_iff, nil_mem_stacksFrom_iff, endsAt_located_iff hfields, Solver.Finds,
    holdsDirectly_iff hfields]
  refine and_congr_right fun _ => exists_congr fun state => and_iff_right_of_imp fun hstate => ?_
  rcases ((hw.solver hid hs).field hstate).2.eq_or_pushes with ⟨-, rfl⟩ | ⟨hf, -⟩
  · rfl
  · exact absurd rfl (hnamed.ne_epsilon hf.1)

/-- In the run of any query, an object is found where the forward query of it finds it. -/
theorem finds_iff (hresolved : session.setting.options.onTheFly = false) {q : Query}
    {r r' : Run Reach} (h : Scheduled session.setting (session.begin (.forward a)) r)
    (h' : Scheduled session.setting (session.begin q) r') (hrested : r.Rested)
    (hrested' : r'.Rested) (hid : r'.Names id (.forward a)) (n : Node) :
    r'.Finds a n ↔ r.Finds a n := by
  have hfree : session.setting.weighing.ZeroFree := hweighing ▸ zeroFree_reach
  have hnames := h.names hfree
  have hcomplete := h.complete hfree hrested
  have hcomplete' := h'.complete hfree hrested'
  obtain ⟨s, hs, -⟩ := hcomplete.ids hnames
  obtain ⟨s', hs', -⟩ := hcomplete'.ids hid
  have hagree := h.solversAgree hfree hresolved h' hrested hrested' hid hs hs'
  rw [Run.finds_iff hid hs', Run.finds_iff hnames hs]
  exact (hagree.finds_iff hcomplete hcomplete' hs hs' n).symm

end Run.Scheduled

/-! ### Programs that do not access fields -/

/-- A solver that has nothing left to do has nothing left to do for fewer edges. -/
theorem Run.Finished.of_edges [Weight ω] {c : Setting ω} {g g' : CallGraph}
    {sent : Message → Prop} (h : Finished c g sent s)
    (hedges : ∀ {x : Crossing} {e}, e ∈ x.edges g' → e ∈ x.edges g) : Finished c g' sent s :=
  { h with
    node := fun hn hincluded => ⟨(h.node hn hincluded).1, fun x hx =>
      ⟨((h.node hn hincluded).2 x hx).1, fun e he => ((h.node hn hincluded).2 x hx).2 e (hedges he)⟩⟩ }

/-- Without access to fields, every allocation found is found where the query was asked. -/
theorem Pushdown.finds_of_mem_allocations (hp : c.program.IsLaidOut)
    (hnames : c.program.NamesDistinct)
    (hstatements : ∀ s ∈ c.program.statements, s.accessesField = false)
    (hresolved : c.options.onTheFly = false) (hscope : c.scope = .everything)
    (hweighing : c.weighing = .reach) (hq : q.node.stmt ∈ c.program.statements)
    (h : Run.Scheduled (Session.setting ⟨c, .classHierarchy c.program⟩)
      (Session.begin ⟨c, .classHierarchy c.program⟩ (.backward q)) r)
    (hrested : r.Rested) {finder : SolverId} (ha : a ∈ r.allocations.get finder)
    (hid : r.Names id (.forward a)) : r.Finds a q.node := by
  have hfree : c.weighing.ZeroFree := hweighing ▸ zeroFree_reach
  have hcomplete := h.complete hfree hrested
  have hw : r.Within (confirming c.program a.node q.node) := by
    have hb := closed_confirming hp hnames hstatements hresolved a.node hq
    exact h.within hfree hb rfl (fun he => he) (.inl rfl) fun _ _ _ => rfl
  -- The object gets to where the query was asked.
  obtain ⟨-, -, -, hcomes⟩ := hw.allocation ha
  obtain ⟨stack, hsteps⟩ := hcomes rfl
  -- Its solver follows it there.
  obtain ⟨s, hs, hseed, hdirection⟩ := hcomplete.ids hid
  replace hseed : s.seed = a.node := hseed
  have hfinished := (hcomplete.finished hs).of_edges fun {x e} he => (hw.graph.edges x).subset he
  have hwithin : s.Within (stacked c.program (.classHierarchy c.program) a.node) := hw.solver hid hs
  have hfirst : Found s ⟨a.node, []⟩ := by
    have hstarted := hcomplete.started hs
    refine ⟨s.bottom, hstarted.calls ?_, .nil, hstarted.fields ?_⟩ <;>
      rw [bottom, hseed] <;>
      exact (mem_transitions_seeded ..).2 ⟨rfl, ZeroFree.one_ne_zero⟩
  rw [← hseed] at hwithin hsteps hfirst
  obtain ⟨q', hq', -, hfield⟩ := hfirst.of_steps hfinished hdirection hscope hwithin hsteps
  exact ⟨id, s, hid, hs, (hfinished.reached_iff _).2 ⟨⟨q', hq'⟩, _, _, hfield⟩,
    (holdsDirectly_iff hfinished.sound.fields _).2 ⟨_, hfield⟩⟩

/-! ### Answers -/

namespace Session

variable {session : Session Reach} (hweighing : session.setting.weighing = .reach)

theorem aliases_mem_subscribers [Weight ω] [DecidableEq ω] [ZeroFree ω] {session : Session ω}
    (hreport : session.setting.options.reportAliases = true) (q : BackwardQuery) :
    .aliases ∈ (session.beginBackward q).subscribers.get ⟨0⟩ := by
  obtain ⟨hp, -, hfirst⟩ := Run.proceeds_withSolver session.setting session.graph (.backward q)
  simp only [beginBackward, if_pos hreport]
  rw [hfirst]
  exact (hp.kept.subscribe .aliases trivial ⟨0⟩).2

include hweighing

/-- What is reported for a backward query comes from a run at rest, in which all allocations
    found are followed. -/
theorem exists_rested_of_solveBackward (hreport : session.setting.options.reportAliases = true)
    {result : BackwardResult} (hresult : (session.solveBackward q).1 = .ok result)
    (hconverged : result.timedOut = false) :
    ∃ r, Run.Scheduled session.setting (session.begin (.backward q)) r ∧ r.Rested ∧
      (∀ a n, ((session.beginBackward q).finish session.setting).Finds a n ↔ r.Finds a n) ∧
      (∀ a ∈ result.allocations, a ∈ r.allocations.get ⟨0⟩ ∧ ∃ id, r.Names id (.forward a)) ∧
      result.aliases = r.aliasesAt q.node.stmt result.allocations := by
  have hfree : session.setting.weighing.ZeroFree := hweighing ▸ zeroFree_reach
  obtain ⟨hphase, hallocations⟩ := Search.mem_allocations_of_endBackward hresult hconverged
  have ho := (Run.orderly_begin session (.backward q)).1
  obtain ⟨r, h, hrested, heq⟩ := Run.Follows.exists_scheduled hfree (.inl .start) ho hphase
  have hfinish : (session.beginBackward q).finish session.setting =
    { r with phase := .converged } := heq
  have haliases : result.aliases =
      ((session.beginBackward q).finish session.setting).aliasesAt q.node.stmt result.allocations := by
    simp only [solveBackward, endBackward] at hresult
    split at hresult
    · cases hresult
    · cases hresult
      simp only [Run.backwardResult, if_pos hreport]
  have hcomplete := h.complete hfree hrested
  have hsubscribed := (h.grows hfree).subscribers (aliases_mem_subscribers hreport q)
  refine ⟨r, h, hrested, fun a n => by rw [hfinish]; rfl, fun a ha => ?_, ?_⟩
  · have ha' := (hallocations a).1 ha
    rw [hfinish] at ha'
    exact ⟨ha', hcomplete.notified hsubscribed ha'⟩
  · rw [haliases, hfinish]
    rfl

/-- What is reported for a forward query is where the object is found in a run at rest. -/
theorem exists_rested_of_solveForward {answer : ForwardResult Reach}
    (hanswer : (session.solveForward a).1 = .ok answer) (hconverged : answer.timedOut = false) :
    ∃ r, Run.Scheduled session.setting (session.begin (.forward a)) r ∧ r.Rested ∧
      (∀ n, ((session.beginForward a).finish session.setting).Finds a n ↔ r.Finds a n) ∧
      ∀ n, n ∈ answer.nodes ↔ r.Finds a n := by
  have hfree : session.setting.weighing.ZeroFree := hweighing ▸ zeroFree_reach
  obtain ⟨hphase, hnodes⟩ := Pushdown.nodes_of_endForward hanswer hconverged
  have ho := (Run.orderly_begin session (.forward a)).1
  obtain ⟨r, h, hrested, heq⟩ := Run.Follows.exists_scheduled hfree (.inl .start) ho hphase
  have hfinish : (session.beginForward a).finish session.setting =
    { r with phase := .converged } := heq
  obtain ⟨s, hs, -⟩ := (h.complete hfree hrested).ids (h.names hfree)
  refine ⟨r, h, hrested, fun n => by rw [hfinish]; rfl, fun n => ?_⟩
  rw [hnodes s (by rw [hfinish]; exact hs)]
  exact h.mem_table_iff hweighing hrested hs n

end Session

/-- The local asked about is among its own aliases exactly if the forward query of one of the
    allocations found gets to it, which is the case for all of them if no field is accessed. -/
theorem Session.self_mem_aliases {d : Description} {p : Program} (hp : d.resolve = .ok p)
    (options : Options) (hresolved : options.onTheFly = false)
    (hreport : options.reportAliases = true) (q : BackwardQuery)
    (hq : q.node.stmt ∈ p.statements) {result : BackwardResult}
    (hresult : (solveBackward (.start ⟨p, .everything, .reach, options⟩) q).1 = .ok result)
    (hconverged : result.timedOut = false) :
    (∀ a ∈ result.allocations, ∀ answer,
        (solveForward (.start ⟨p, .everything, .reach, options⟩) a).1 = .ok answer →
        answer.timedOut = false → q.node ∈ answer.nodes → ⟨q.node.var, []⟩ ∈ result.aliases) ∧
      (⟨q.node.var, []⟩ ∈ result.aliases → ∃ a ∈ result.allocations, ∀ answer,
        (solveForward (.start ⟨p, .everything, .reach, options⟩) a).1 = .ok answer →
        answer.timedOut = false → q.node ∈ answer.nodes) ∧
      ((∀ s ∈ p.statements, s.accessesField = false) → result.allocations ≠ [] →
        ⟨q.node.var, []⟩ ∈ result.aliases) := by
  obtain ⟨session, hsession⟩ : ∃ session : Session Reach,
    session = ⟨⟨p, .everything, .reach, options⟩, .classHierarchy p⟩ := ⟨_, rfl⟩
  have hstart : Session.start ⟨p, .everything, .reach, options⟩ = session := by
    rw [hsession]
    simp [Session.start, hresolved]
  rw [hstart] at hresult ⊢
  have hweighing : session.setting.weighing = .reach := by rw [hsession]
  have hgraph : p.Builds session.graph := by
    rw [hsession]
    exact .classHierarchy p
  obtain ⟨r, h, hrested, -, hfound, haliases⟩ :=
    exists_rested_of_solveBackward hweighing (by rw [hsession]; exact hreport) hresult hconverged
  rw [haliases, h.self_mem_aliasesAt_iff hweighing (by rw [hsession])
    (isLaidOut_of_resolve hp) (Description.fieldsNamed_of_resolve hp) hgraph hq hrested]
  -- What a forward query reports is where the object is found in this run.
  have hnodes : ∀ a ∈ result.allocations, ∀ answer, (session.solveForward a).1 = .ok answer →
      answer.timedOut = false → (q.node ∈ answer.nodes ↔ r.Finds a q.node) := by
    intro a ha answer hanswer hconverged'
    obtain ⟨-, id, hid⟩ := hfound a ha
    obtain ⟨r', h', hrested', -, hnodes⟩ :=
      exists_rested_of_solveForward hweighing hanswer hconverged'
    rw [hnodes]
    exact (h'.finds_iff hweighing (by rw [hsession]; exact hresolved) h hrested' hrested hid _).symm
  refine ⟨?_, ?_, ?_⟩
  · intro a ha answer hanswer hconverged' hmem
    exact ⟨a, ha, (hnodes a ha answer hanswer hconverged').1 hmem⟩
  · rintro ⟨a, ha, hfinds⟩
    exact ⟨a, ha, fun answer hanswer hconverged' =>
      (hnodes a ha answer hanswer hconverged').2 hfinds⟩
  · intro hfields hne
    obtain ⟨a, ha⟩ := List.exists_mem_of_ne_nil _ hne
    obtain ⟨hmem, id, hid⟩ := hfound a ha
    subst hsession
    exact ⟨a, ha, Pushdown.finds_of_mem_allocations (isLaidOut_of_resolve hp)
      (Description.namesDistinct_of_resolve hp) hfields hresolved rfl rfl hq h hrested hmem hid⟩

/-! ### Examples -/

/-- Whether the object is found at the node in the listing of a run. -/
def Run.Listing.finds {ω : Type} (l : Run.Listing ω) (a : ForwardQuery) (n : Node) : Bool :=
  match (valueOf? l.ids (.forward a)).bind l.solver? with
  | some s => s.reached.contains n &&
    (s.fields.transitionsOf (.out (.located n))).any fun t => t.label == .epsilon
  | none => false

theorem Run.ListedBy.finds_iff {r : Run ω} {l : Run.Listing ω} (h : r.ListedBy l) (a : ForwardQuery)
    (n : Node) : r.Finds a n ↔ l.finds a n = true := by
  have hsolver : ∀ {s : Solver ω} {l}, s.ListedBy l → (s.Finds n ↔ (l.reached.contains n &&
      (l.fields.transitionsOf (.out (.located n))).any fun t => t.label == .epsilon) = true) := by
    intro s l hs
    rw [Solver.Finds, holdsDirectly, hs.fields.stored, ← hs.reached, and_eq_true,
      List.contains_iff_mem]
    exact Iff.rfl
  simp only [Run.Finds, Run.Names, h.ids, Run.Listing.finds]
  cases hid : valueOf? l.ids (Query.forward a) with
  | none => simp
  | some id =>
    have hrel := h.solver id
    simp only [Option.some.injEq, Option.bind_some, exists_and_left, exists_eq_left']
    generalize r.solver? id = s, l.solver? id = l' at hrel ⊢
    cases hrel with
    | none => simp
    | some hlisted => simp [hsolver hlisted]

/-- If the listing of its run converges, a forward query reports the nodes found in it. -/
theorem Session.exists_answer_of_finds (hweighing : c.weighing = .reach) {n : Node} {k : Nat}
    (hphase : ((Run.Listing.beginForward c a).advance c 0 k).phase = .converged)
    (hle : k ≤ Run.ample)
    (hfinds : ((Run.Listing.beginForward c a).advance c 0 k).finds a n = true) :
    ∃ answer, (solveForward (.start c) a).1 = .ok answer ∧ answer.timedOut = false ∧
      n ∈ answer.nodes := by
  obtain ⟨answer, hanswer, hconverged⟩ := Run.exists_forwardResult hphase hle
  refine ⟨answer, hanswer, hconverged, ?_⟩
  obtain ⟨r, -, -, hfinish, hnodes⟩ := exists_rested_of_solveForward hweighing hanswer hconverged
  have hlisted := (Run.listedBy_beginForward a).finish hphase hle
  rw [hnodes, ← hfinish]
  exact (hlisted.finds_iff a n).2 hfinds

namespace Sharing

theorem found_creation : creation ∈ valuesOf ((Run.Listing.beginBackward (setting .reach) query).advance
    (setting .reach) 0 1000).found ⟨0⟩ := by
  decide +kernel

/-- The value is followed to where it was read. -/
theorem finds_creation :
    ((Run.Listing.beginForward (setting .reach) creation).advance (setting .reach) 0 1000).phase =
        .converged ∧
      ((Run.Listing.beginForward (setting .reach) creation).advance (setting .reach) 0 1000).finds
        creation query.node = true := by
  decide +kernel

end Sharing

/-- What is read through another local is found to be what was written, which is found to be
    what is read. -/
theorem Session.self_mem_aliases_sharing :
    Sharing.description.resolve = .ok Sharing.program ∧
      ∃ result answer,
        (solveBackward (.start (Sharing.setting .reach)) Sharing.query).1 = .ok result ∧
        result.timedOut = false ∧ Sharing.creation ∈ result.allocations ∧
        (solveForward (.start (Sharing.setting .reach)) Sharing.creation).1 = .ok answer ∧
        answer.timedOut = false ∧ Sharing.query.node ∈ answer.nodes ∧
        ⟨Sharing.var "y", []⟩ ∈ result.aliases := by
  obtain ⟨result, hresult, hconverged, hfound⟩ :=
    Run.exists_backwardResult Sharing.converges_reach (by decide)
  obtain ⟨answer, hanswer, hconverged', hnode⟩ :=
    exists_answer_of_finds rfl Sharing.finds_creation.1 (by decide) Sharing.finds_creation.2
  have ha := (hfound Sharing.creation).2 Sharing.found_creation
  refine ⟨Sharing.resolve_description, result, answer, hresult, hconverged, ha, hanswer,
    hconverged', hnode, ?_⟩
  exact (self_mem_aliases Sharing.resolve_description {} rfl rfl Sharing.query (by decide +kernel)
    hresult hconverged).1 _ ha answer hanswer hconverged' hnode

/-! ### What is missed -/

namespace Knot

/-- An object holds itself, is read from itself and read from itself again. -/
def description : Description where
  methods := [{
    name := "Main.main"
    body := [.new "x" "X", .store "x" "g" "x", .load "y" "x" "g", .load "z" "y" "g", .nop] }]

def var (name : String) : Local := ⟨⟨"Main.main"⟩, name⟩

def actions : List Action :=
  [.assign (var "x") (.alloc ⟨"X"⟩), .store (var "x") (.named "g") (var "x"),
    .assign (var "y") (.load (var "x") (.named "g")),
    .assign (var "z") (.load (var "y") (.named "g")), .nop, .ret none]

/-- The statement at a place. -/
def stmt (index : Nat) : Statement := ⟨⟨"Main.main"⟩, index, actions[index]?.getD .nop⟩

def program : Program where
  classes := []
  methods := [.ofActions ⟨"Main.main"⟩ none [] actions]
  unreachable := []

theorem resolve_description : description.resolve = .ok program := Description.resolve_method rfl

def object : Value := ⟨⟨stmt 0, var "x"⟩, 0⟩

/-- In the only execution all locals hold the object. -/
theorem exists_execution : ∃ (m : Memory) (_ : Execution program (stmt 4) m),
    m.locals (var "z") = some object := by
  have hg : (Field.named "g").covers (.named "g") = true := rfl
  have hmain : program.method? ⟨"Main.main"⟩ = some (.ofActions ⟨"Main.main"⟩ none [] actions) := rfl
  let e₀ : Execution program (stmt 0) .empty := .start hmain rfl
  let e₁ : Execution program (stmt 1) (Memory.empty.assign (var "x") (some object)) :=
    e₀.step (.create rfl rfl rfl ⟨nofun, nofun, fun _ => rfl⟩) (by decide +kernel)
  let e₂ : Execution program (stmt 2) _ := e₁.step (.store rfl hg) (by decide +kernel)
  let e₃ : Execution program (stmt 3) _ := e₂.step (.load rfl hg) (by decide +kernel)
  let e₄ : Execution program (stmt 4) _ := e₃.step (.load rfl hg) (by decide +kernel)
  exact ⟨_, e₄, rfl⟩

def setting : Setting Reach := ⟨program, .everything, .reach, {}⟩

def query : BackwardQuery := ⟨⟨stmt 4, var "z"⟩⟩

/-- The creation of the object. -/
def created : ForwardQuery := ⟨⟨stmt 0, var "x"⟩, rfl⟩

/-- The listing of the run. -/
def listing : Run.Listing Reach := (Run.Listing.beginBackward setting query).advance setting 0 1000

/-- The creation of the object is found, but the object is not followed back to the local. -/
theorem missed_listing : listing.phase = .converged ∧ valuesOf listing.found ⟨0⟩ = [created] ∧
    listing.finds created query.node = false := by
  decide +kernel

end Knot

/-- A local need not be among its own aliases, even if it holds an object that is found. -/
theorem Session.self_not_mem_aliases : Knot.description.resolve = .ok Knot.program ∧
    ∃ result, (solveBackward (.start Knot.setting) Knot.query).1 = .ok result ∧
      result.timedOut = false ∧ result.allocations ≠ [] ∧
      ⟨Knot.var "z", []⟩ ∉ result.aliases ∧
      ∃ (m : Memory) (_ : Execution Knot.program (Knot.stmt 4) m),
        m.locals (Knot.var "z") = some Knot.object := by
  obtain ⟨hphase, hfound, hmissed⟩ := Knot.missed_listing
  obtain ⟨result, hresult, hconverged, hallocations⟩ := Run.exists_backwardResult hphase (by decide)
  rw [← Knot.listing, hfound] at hallocations
  refine ⟨Knot.resolve_description, result, hresult, hconverged, ?_, ?_, Knot.exists_execution⟩
  · exact List.ne_nil_of_mem ((hallocations Knot.created).2 mem_cons_self)
  · obtain ⟨r, h, hrested, hfinish, -, haliases⟩ :=
      exists_rested_of_solveBackward rfl rfl hresult hconverged
    have hself := h.self_mem_aliasesAt_iff rfl rfl
      (isLaidOut_of_resolve Knot.resolve_description)
      (Description.fieldsNamed_of_resolve Knot.resolve_description)
      (.classHierarchy Knot.program) (by decide +kernel) hrested result.allocations
    rw [haliases]
    intro hmem
    obtain ⟨a, ha, hfinds⟩ := hself.1 hmem
    obtain rfl : a = Knot.created := mem_singleton.1 ((hallocations a).1 ha)
    have hlisted := (Run.listedBy_beginBackward Knot.query).finish hphase (by decide)
    have hfinds' := (hlisted.finds_iff Knot.created Knot.query.node).1 ((hfinish _ _).2 hfinds)
    exact Bool.false_ne_true (hmissed.symm.trans hfinds')

end DemandAlias
