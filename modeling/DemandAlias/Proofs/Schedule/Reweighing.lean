import DemandAlias.Proofs.Automaton.Loop
import DemandAlias.Proofs.Context.Exactness
import DemandAlias.Proofs.Data.Sorting
import DemandAlias.Proofs.Run.Marks
import DemandAlias.Proofs.Schedule.Independence

/-!
# Weights lead nowhere

With weights that tell how an object gets to a node, a run takes more steps than without,
and in another order, as what depends on a transition is looked at again when its weight
changes. In the end it has been to the same places: runs of one query that differ only in
what they weigh have all that the other one has (`Run.Embeds`), and what is answered is the
same but for the weights (`SameAnswer`, `reaches_same`).

Of the automata of calls it is known that each transition of one matches a transition of
the other, up to the numbers of solvers, which may differ (`renumbers_trailed`). Matching is
a simulation (`Embeds.step`), so a way to the bottom in one automaton is followed in the
other one (`Embeds.accepts`), and so is a way that goes on for ever (`Embeds.acc`).
-/

namespace DemandAlias

variable {ω ω' : Type} {n : Node}

namespace Solver

/-- The solver `s'` has all that `s` has, but for the numbers of solvers and for weights. -/
structure Embeds (R : SolverId → SolverId → Prop) (s : Solver ω) (s' : Solver ω') : Prop where
  processed : ∀ {n}, s.Processed n → s'.Processed n
  fields : ∀ {t}, t ∈ s.fields.transitions → t ∈ s'.fields.transitions
  calls : ∀ {t}, t ∈ s.calls.transitions → ∃ t' ∈ s'.calls.transitions, Transition.Matches R t t'

/-- What is known of the solver of a forward query in the end. -/
structure Concluded [Weight ω] (c : Setting ω) (q : ForwardQuery) (s : Solver ω) : Prop where
  finished : ∃ g sent, Run.Finished c g sent s
  marked : s.Marked c
  final : ∀ q', q' ∈ s.calls.final ↔ q' = .bottom q.node

namespace Embeds

variable {R : SolverId → SolverId → Prop} {s : Solver ω} {s' : Solver ω'}

section

variable (h : s.Embeds R s') (hR : Unambiguous R)
include h hR

/-- A step from a state is one from the states that match it. -/
theorem step {q q' p : State} {l : Statement} (hq : q.Matches R q')
    (ht : ⟨q, l, p⟩ ∈ s.calls.transitions) :
    ∃ p', p.Matches R p' ∧ ⟨q', l, p'⟩ ∈ s'.calls.transitions := by
  obtain ⟨⟨source, label, target⟩, ht', hsource, hlabel, htarget⟩ := h.calls ht
  cases hlabel
  cases hq.unique hR hsource
  exact ⟨target, htarget, ht'⟩

theorem accepts (hfinal : ∀ q, q ∈ s.calls.final → q = .bottom n)
    (hfinal' : .bottom n ∈ s'.calls.final) {q q' : State} (hq : q.Matches R q')
    (haccepts : s.calls.Accepts q) : s'.calls.Accepts q' := by
  induction haccepts generalizing q' with
  | final hmem =>
    obtain rfl := (hq.eq_bottom_iff n).1 (hfinal _ hmem)
    exact .final hfinal'
  | step ht _ ih =>
    obtain ⟨p', hp, ht'⟩ := h.step hR hq ht
    exact .step ht' (ih hp)

/-- If one cannot go on for ever in `s'`, then neither in `s`. -/
theorem acc {silent : Statement → Bool} {q q' : State} (hq : q.Matches R q')
    (hacc : Acc (s'.calls.LeadsTo silent) q') : Acc (s.calls.LeadsTo silent) q := by
  induction hacc generalizing q with
  | intro _ _ ih =>
    refine .intro q fun p ⟨l, hloud, ht⟩ => ?_
    obtain ⟨p', hp, ht'⟩ := h.step hR hq ht
    exact ih p' ⟨l, hloud, ht'⟩ hp

end

variable [Weight ω] {c : Setting ω} {q : ForwardQuery}

theorem reached (h : s.Embeds R s') (hs : s.Concluded c q) (hn : n ∈ s.reached) :
    n ∈ s'.reached := by
  obtain ⟨g, sent, hfinished⟩ := hs.finished
  exact (h.processed ⟨hn, by rw [hfinished.idle]; exact not_mem_nil⟩).1

variable [Weight ω'] {c' : Setting ω'}

section

variable (h : s.Embeds R s') (hs : s.Concluded c q) (hs' : s'.Concluded c' q)
include h hs hs'

/-- Recursion is found in `s'` if it is found in `s`. -/
theorem hasRecursion (hR : Unambiguous R) (hnone : (s'.calls.hasLoop fun _ => false) = false) :
    (s.calls.hasLoop fun _ => false) = false := by
  obtain ⟨g, sent, hfinished⟩ := hs.finished
  obtain ⟨g', sent', hfinished'⟩ := hs'.finished
  rw [Automaton.hasLoop_eq_false_iff hfinished'.sound.calls.filed] at hnone
  rw [Automaton.hasLoop_eq_false_iff hfinished.sound.calls.filed]
  intro q₀ hq₀
  -- Both automata are entered at the locals of their transitions, so at the same ones.
  obtain ⟨n, p, rfl, ht⟩ := (hfinished.mem_initial_calls_iff hs.marked q₀).1 hq₀
  obtain ⟨p', -, ht'⟩ := h.step hR (.single n.var) ht
  exact h.acc hR (.single n.var)
    (hnone _ ((hfinished'.mem_initial_calls_iff hs'.marked _).2 ⟨n, p', rfl, ht'⟩))

theorem hasFieldLoop {silent : Field → Bool} (hnone : s'.fields.hasLoop silent = false) :
    s.fields.hasLoop silent = false := by
  obtain ⟨g, sent, hfinished⟩ := hs.finished
  obtain ⟨g', sent', hfinished'⟩ := hs'.finished
  rw [Automaton.hasLoop_eq_false_iff hfinished'.sound.fields.filed] at hnone
  rw [Automaton.hasLoop_eq_false_iff hfinished.sound.fields.filed]
  intro q₀ hq₀
  obtain ⟨n, l, p, rfl, ht⟩ := (hfinished.mem_initial_fields_iff hs.marked q₀).1 hq₀
  have hacc := hnone _ ((hfinished'.mem_initial_fields_iff hs'.marked _).2
    ⟨n, l, p, rfl, h.fields ht⟩)
  exact Subrelation.accessible (fun ⟨l, hloud, ht⟩ => ⟨l, hloud, h.fields ht⟩) hacc

theorem visited {m : MethodName} (hm : m ∈ s.visited) : m ∈ s'.visited := by
  obtain ⟨g', sent', hfinished'⟩ := hs'.finished
  obtain ⟨n, hn, rfl⟩ := hs.marked.visits m hm
  exact (hfinished'.mem_visited_iff hs'.marked _).2 ⟨n, h.reached hs hn, rfl⟩

end

variable [DecidableEq ω] [ZeroFree ω] [ZeroCombine ω] [DecidableEq ω'] [ZeroFree ω']
  [ZeroCombine ω']

/-- The nodes of `s` are reported of `s'`, if nothing is left out there. -/
theorem nodes (h : s.Embeds R s') (hR : Unambiguous R) (hs : s.Concluded c q)
    (hs' : s'.Concluded c' q)
    (hkept : Pushdown.KeepsAll c q) (hkept' : Pushdown.KeepsAll c' q)
    (hn : n ∈ (Run.tableOf c s q).map (·.1)) : n ∈ (Run.tableOf c' s' q).map (·.1) := by
  obtain ⟨g, sent, hfinished⟩ := hs.finished
  obtain ⟨g', sent', hfinished'⟩ := hs'.finished
  rw [Pushdown.mem_tableOf_of_kept hkept, mem_nodeWeights_iff hfinished.sound.calls,
    holdsDirectly_iff hfinished.sound.fields] at hn
  rw [Pushdown.mem_tableOf_of_kept hkept', mem_nodeWeights_iff hfinished'.sound.calls,
    holdsDirectly_iff hfinished'.sound.fields]
  -- Being reported is being reached with a stack that is accepted, and without fields.
  obtain ⟨⟨hreached, q₀, ht, haccepts⟩, p, hp⟩ := hn
  obtain ⟨q₀', hq₀, ht'⟩ := h.step hR (.single n.var) ht
  exact ⟨⟨h.reached hs hreached, q₀', ht', h.accepts hR (fun q => (hs.final q).1)
    ((hs'.final _).2 rfl) hq₀ haccepts⟩, p, h.fields hp⟩

end Embeds

end Solver

/-! ### Answers -/

/-- The answers say the same but for the weights. -/
structure ForwardResult.SameAnswer (a : ForwardResult ω) (b : ForwardResult ω') : Prop where
  nodes : a.nodes = b.nodes
  hasRecursion : a.hasRecursion = b.hasRecursion
  hasFieldLoop : a.hasFieldLoop = b.hasFieldLoop
  invoked : a.invoked = b.invoked
  visited : a.visited = b.visited

section Answer

variable [Weight ω] [DecidableEq ω] [Weight ω'] [DecidableEq ω']

/-- The nodes of a table are in order, each of them once. -/
theorem Run.inOrder_tableOf (c : Setting ω) (s : Solver ω) (q : ForwardQuery) :
    InOrder ((tableOf c s q).map (·.1)) ∧ ((tableOf c s q).map (·.1)).Nodup := by
  have hsub : (tableOf c s q).Sublist (sortedBy (·.1) s.nodeWeights.toList) := List.filter_sublist
  have hnodes := hsub.map (·.1)
  exact ⟨(inOrder_map_sortedBy _ _).sublist hnodes, (nodup_map_sortedBy _).sublist hnodes⟩

theorem eq_of_eq_false_iff {a b : Bool} (h : b = false → a = false) (h' : a = false → b = false) :
    a = b := by
  cases a with
  | false => exact (h' rfl).symm
  | true => cases b with
    | false => exact h rfl
    | true => rfl

variable [ZeroFree ω] [ZeroCombine ω] [ZeroFree ω'] [ZeroCombine ω']

/-- Solvers that have all that the other one has give the same answer. -/
theorem Run.sameAnswer_forwardResult {R R' : SolverId → SolverId → Prop} (hR : Unambiguous R)
    (hR' : Unambiguous R') {s : Solver ω} {s' : Solver ω'} (h : s.Embeds R s')
    (h' : s'.Embeds R' s) {c : Setting ω} {c' : Setting ω'} {q : ForwardQuery}
    (hs : s.Concluded c q) (hs' : s'.Concluded c' q) (hsame : c.outline = c'.outline)
    (hprune : c.options.prune = false) (r : Run ω) (r' : Run ω') :
    (r.forwardResult c q s).SameAnswer (r'.forwardResult c' q s') := by
  have hkept : Pushdown.KeepsAll c q := by simp [Pushdown.KeepsAll, hprune]
  have hkept' : Pushdown.KeepsAll c' q := by
    simp [Pushdown.KeepsAll, ← Setting.options_of_outline hsame, hprune]
  have hnodes : (tableOf c s q).map (·.1) = (tableOf c' s' q).map (·.1) :=
    eq_of_mem_iff (inOrder_tableOf c s q).1 (inOrder_tableOf c' s' q).1 (inOrder_tableOf c s q).2
      (inOrder_tableOf c' s' q).2 fun n => ⟨h.nodes hR hs hs' hkept hkept',
        h'.nodes hR' hs' hs hkept' hkept⟩
  have hvisited : sorted s.visited.toList = sorted s'.visited.toList :=
    sorted_eq_of_mem_iff s.visited.nodup_toList s'.visited.nodup_toList fun m =>
      ⟨h.visited hs hs', h'.visited hs' hs⟩
  exact {
    nodes := hnodes
    hasRecursion := eq_of_eq_false_iff (h.hasRecursion hs hs' hR) (h'.hasRecursion hs' hs hR')
    hasFieldLoop := eq_of_eq_false_iff (h.hasFieldLoop hs hs') (h'.hasFieldLoop hs' hs)
    invoked := by
      simp only [forwardResult, hnodes, Setting.program_of_outline hsame]
    visited := hvisited }

end Answer

/-! ### Sessions -/

/-- A solver of the same query in a run that has all that another one has. -/
theorem Run.Embeds.solver {r : Run ω} {r' : Run ω'} (h : r.Embeds r') {q : Query}
    {id id' : SolverId} {s : Solver ω} {s' : Solver ω'} (hid : r.Names id q)
    (hid' : r'.Names id' q) (hs : r.solver? id = some s) (hs' : r'.solver? id' = some s') :
    s.Embeds (r.Names.Same r'.Names) s' where
  processed hn := (hasSolver_iff hid' hs' _).1 (h.processed ((hasSolver_iff hid hs _).2 hn))
  fields ht := (hasSolver_iff hid' hs' (_ ∈ ·.fields.transitions)).1
    (h.fields ((hasSolver_iff hid hs (_ ∈ ·.fields.transitions)).2 ht))
  calls ht := by
    obtain ⟨t', hmatch, ht'⟩ := h.calls ((hasSolver_iff hid hs (_ ∈ ·.calls.transitions)).2 ht)
    exact ⟨t', (hasSolver_iff hid' hs' _).1 ht', hmatch⟩

namespace Session

variable [Weight ω] [DecidableEq ω] [Weight ω'] [DecidableEq ω']

/-- The run of the query converges to `r`. -/
structure ConvergesTo (session : Session ω) (q : Query) (r : Run ω) : Prop where
  advances : ∃ elapsed n, r = (session.begin q).advance session.setting elapsed n
  converged : r.phase = .converged

/-- If its listing converges, the run of a query does. -/
theorem exists_convergesTo {session : Session ω} {edges : List CallEdge}
    (hgraph : session.graph.ListedBy edges) {q : Query} {n : Nat}
    (hphase : ((Run.Listing.begin session.setting edges q).advance session.setting 0 n).phase =
      .converged) :
    ∃ r, session.ConvergesTo q r ∧
      r.ListedBy ((Run.Listing.begin session.setting edges q).advance session.setting 0 n) := by
  have hlisted := (Run.listedBy_begin hgraph q).advance (c := session.setting) 0 n
  exact ⟨_, ⟨⟨0, n, rfl⟩, hlisted.phase.trans hphase⟩, hlisted⟩

namespace ConvergesTo

variable {session : Session ω} {session' : Session ω'} {q : Query} {r : Run ω} {r' : Run ω'}

theorem reachable (h : session.ConvergesTo q r) : Run.Reachable session.setting r := by
  obtain ⟨elapsed, n, rfl⟩ := h.advances
  exact (Run.reachable_begin session q).advance elapsed n

variable [ZeroFree ω] [ZeroFree ω'] (hc : session.setting.weighing.ZeroFree)
  (h : session.ConvergesTo q r)
include hc h

section

omit [ZeroFree ω']

theorem complete : r.Complete session.setting := h.reachable.complete hc h.converged

/-- Up to its phase, the run has come to rest. -/
theorem exists_scheduled :
    ∃ r₀, Run.Scheduled session.setting (session.begin q) r₀ ∧ r₀.Rested ∧
      r = { r₀ with phase := .converged } := by
  obtain ⟨elapsed, n, rfl⟩ := h.advances
  exact Run.Follows.exists_scheduled hc (.inl .start) (Run.orderly_begin session q).1 h.converged

theorem grows : Run.Grows (session.begin q) r := by
  obtain ⟨elapsed, n, rfl⟩ := h.advances
  exact ((Run.orderly_begin session q).1.advance hc elapsed n).grows

/-- The solver of the query is the first one. -/
theorem names : r.Names ⟨0⟩ q := (h.grows hc).ids (Run.orderly_begin session q).2

theorem grows_graph : session.graph.Grows r.graph :=
  ((Run.grows_begin session q).trans (h.grows hc)).graph

end

/-- A run that converges has all that another one has that begins with no other edges. -/
theorem embeds (hc' : session'.setting.weighing.ZeroFree) (h' : session'.ConvergesTo q r')
    (hsame : session.setting.outline = session'.setting.outline)
    (hgraph : session.graph.Grows r'.graph) : r.Embeds r' := by
  obtain ⟨r₀, hscheduled, hrested, rfl⟩ := h.exists_scheduled hc
  obtain ⟨r₀', hscheduled', hrested', rfl⟩ := h'.exists_scheduled hc'
  have hgraph₀ : session.graph.Grows r₀'.graph := hgraph
  exact { hscheduled.embeds hc hc' hsame hgraph₀ hscheduled' hrested hrested' with }

end ConvergesTo

/-- The run of a forward query converges to `r`, and its answer is `result`. -/
structure Converges (session : Session ω) (q : ForwardQuery) (r : Run ω)
    (result : ForwardResult ω) : Prop where
  advances : ∃ elapsed n, r = (session.beginForward q).advance session.setting elapsed n
  converged : r.phase = .converged
  answer : session.endForward q r = .ok result

variable {session : Session ω} {session' : Session ω'} {q : ForwardQuery} {r : Run ω} {r' : Run ω'}
  {result : ForwardResult ω} {result' : ForwardResult ω'}

theorem ConvergesTo.converges (h : session.ConvergesTo (.forward q) r) :
    ∃ result, session.Converges q r result := by
  obtain ⟨result, hresult, -⟩ := Run.exists_endForward h.converged
  exact ⟨result, h.advances, h.converged, hresult⟩

namespace Converges

theorem convergesTo (h : session.Converges q r result) : session.ConvergesTo (.forward q) r :=
  ⟨h.advances, h.converged⟩

variable [ZeroFree ω] [ZeroFree ω'] (hc : session.setting.weighing.ZeroFree)
include hc

section

variable (h : session.Converges q r result)
include h

/-- The answer is that of a solver that has nothing left to do. -/
theorem exists_concluded : ∃ s, r.Names ⟨0⟩ (.forward q) ∧ r.solver? ⟨0⟩ = some s ∧
    s.Concluded session.setting q ∧ result = r.forwardResult session.setting q s := by
  obtain ⟨s, hs, hsolver⟩ := (h.convergesTo.grows hc).solvers
    ((Run.solver?_beginForward session q ⟨0⟩).trans (if_pos rfl))
  have hmarked : (session.beginForward q).Everywhere (Solver.Marked session.setting) :=
    Run.everywhere_beginForward session (Solver.marked_start ..)
  refine ⟨s, h.convergesTo.names hc, hs,
    ⟨⟨_, _, (h.convergesTo.complete hc).finished hs⟩, ?_, fun q' => ?_⟩, ?_⟩
  · obtain ⟨elapsed, n, rfl⟩ := h.advances
    exact (Run.maintained_of_endures hc (Solver.endures_marked _) (Solver.marked_start _)).advance
      hc (Run.orderly_begin session (.forward q)).1 hmarked elapsed n hs
  · rw [hsolver.final]
    exact Automaton.mem_final_seeded ..
  · have hanswer := h.answer
    simp only [endForward, failure?, h.converged, hs, getD_some, Except.ok.injEq] at hanswer
    exact hanswer.symm

theorem inj : Naming.Inj r.Names := fun _ _ _ => (h.convergesTo.complete hc).names_inj

end

/-- A run that converges has all that another one has, whatever they weigh. -/
theorem embeds (hc' : session'.setting.weighing.ZeroFree)
    (hsame : session.setting.outline = session'.setting.outline)
    (hgraphs : session.graph = session'.graph) (h : session.Converges q r result)
    (h' : session'.Converges q r' result') : r.Embeds r' :=
  h.convergesTo.embeds hc hc' h'.convergesTo hsame (hgraphs ▸ h'.convergesTo.grows_graph hc')

/-- What is answered does not depend on the weights. -/
theorem sameAnswer [ZeroCombine ω] [ZeroCombine ω'] (hc' : session'.setting.weighing.ZeroFree)
    (hsame : session.setting.outline = session'.setting.outline)
    (hgraphs : session.graph = session'.graph) (hprune : session.setting.options.prune = false)
    (h : session.Converges q r result) (h' : session'.Converges q r' result') :
    result.SameAnswer result' := by
  have hembeds := h.embeds hc hc' hsame hgraphs h'
  have hembeds' := h'.embeds hc' hc hsame.symm hgraphs.symm h
  have hinj := h.inj hc
  have hinj' := h'.inj hc'
  obtain ⟨s, hid, hs, hconcluded, rfl⟩ := h.exists_concluded hc
  obtain ⟨s', hid', hs', hconcluded', rfl⟩ := h'.exists_concluded hc'
  exact Run.sameAnswer_forwardResult (Run.unambiguous_same hinj) (Run.unambiguous_same hinj')
    (hembeds.solver hid hid' hs hs') (hembeds'.solver hid' hid hs' hs) hconcluded hconcluded'
    hsame hprune r r'

end Converges

/-- The runs of a forward query without weights and with trails, if nothing is left out
    because of its trail, have the same solvers with the same nodes, transitions and
    allocations, but for the numbers of solvers, and give the same answer. -/
theorem reaches_same (p : Program) (scope : Scope) {options : Options}
    (hprune : options.prune = false) (q : ForwardQuery) {r : Run Reach} {r' : Run Trail}
    {plain : ForwardResult Reach} {trailed : ForwardResult Trail}
    (h : (start ⟨p, scope, .reach, options⟩).Converges q r plain)
    (h' : (start ⟨p, scope, .trail, options⟩).Converges q r' trailed) :
    r.Embeds r' ∧ r'.Embeds r ∧ plain.SameAnswer trailed := by
  have hc := zeroFree_reach
  have hc' := zeroFree_trail
  exact ⟨h.embeds hc hc' rfl rfl h', h'.embeds hc' hc rfl rfl h,
    h.sameAnswer hc hc' rfl rfl hprune h'⟩

end Session

/-! ### Examples -/

/-- If its listing converges, the run of a forward query does. -/
theorem Session.exists_converges [Weight ω] [DecidableEq ω] {c : Setting ω} {q : ForwardQuery}
    {k : Nat} (h : ((Run.Listing.beginForward c q).advance c 0 k).phase = .converged) :
    ∃ r result, (start c).Converges q r result ∧
      r.ListedBy ((Run.Listing.beginForward c q).advance c 0 k) := by
  obtain ⟨r, hr, hlisted⟩ := exists_convergesTo (Run.listedBy_start c) (q := .forward q) h
  obtain ⟨result, hresult⟩ := hr.converges
  exact ⟨r, result, hresult, hlisted⟩

/-- Where a value is that is written to a field of an object with two names, is the same with
    and without its trails. -/
theorem Session.reaches_same_sharing : ∃ r r' plain trailed,
    (Session.start (Sharing.setting .reach)).Converges Sharing.creation r plain ∧
      (Session.start (Sharing.setting .trail)).Converges Sharing.creation r' trailed ∧
      r.Embeds r' ∧ r'.Embeds r ∧ plain.SameAnswer trailed := by
  obtain ⟨r, plain, h, -⟩ := exists_converges (c := Sharing.setting .reach) (q := Sharing.creation)
    (k := 1000) (by decide +kernel)
  obtain ⟨r', trailed, h', -⟩ := exists_converges (c := Sharing.setting .trail)
    (q := Sharing.creation) (k := 1000) (by decide +kernel)
  exact ⟨r, r', plain, trailed, h, h', reaches_same Sharing.program .everything rfl _ h h'⟩

namespace Detour

/-- A value is written to fields of two boxes, and may be copied before. -/
def description : Description where
  classes := Boxes.description.classes
  methods := Boxes.description.methods.take 2 ++ [
    { name := "Main.main"
      body := [.new "x" "Box", .virtualCall none "x" "set" [.var "a"], .load "x" "x" "f",
        .new "u" "Box", .branch "u" .eq (.const .null) 7, .copy "c" "u", .copy "c" "u",
        .store "u" "h" "x", .load "t" "u" "h", .store "x" "g" "u", .store "y" "g" "u"] }]

def program : Program where
  classes := Boxes.program.classes
  methods := (Description.resolveMethods (description.context (.ofMethods description.methods)) []
    description.methods).toOption.getD []
  unreachable := []

theorem resolve_description : description.resolve = .ok program :=
  Description.resolve_inOrder rfl rfl rfl (by decide) (by decide)

def setting (weighing : Weighing ω) : Setting ω :=
  ⟨program, .everything, weighing, { timeout := none }⟩

/-- Where does the value get to? -/
def query : ForwardQuery :=
  ⟨⟨⟨⟨"Main.main"⟩, 3, .assign (Boxes.var "u") (.alloc ⟨"Box"⟩)⟩, Boxes.var "u"⟩, rfl⟩

/-- Which box is the first one? -/
def asked : Query :=
  .backward ⟨⟨⟨⟨"Main.main"⟩, 9, .store (Boxes.var "x") (.named "g") (Boxes.var "u")⟩,
    Boxes.var "x"⟩⟩

def listing [Weight ω] [DecidableEq ω] (weighing : Weighing ω) : Run.Listing ω :=
  (Run.Listing.beginForward (setting weighing) query).advance (setting weighing) 0 1000

theorem listing_reach : (listing .reach).phase = .converged ∧
    valueOf? (listing .reach).ids asked = some ⟨1⟩ ∧
    ((listing .reach).solver? ⟨1⟩).any fun s =>
      !s.calls.transitions.contains (Boxes.written ⟨2⟩) := by
  decide +kernel

theorem listing_trail : (listing .trail).phase = .converged ∧
    valueOf? (listing .trail).ids asked = some ⟨1⟩ ∧
    ((listing .trail).solver? ⟨1⟩).any fun s =>
      s.calls.transitions.contains (Boxes.written ⟨2⟩) := by
  decide +kernel

end Detour

/-- The numbers of solvers depend on the weights: with trails, what is in the first box is found
    in a calling context that comes from the third solver, and without in one from another. -/
theorem Session.renumbers_trailed : Detour.description.resolve = .ok Detour.program ∧
    ∃ r r' plain trailed,
      (start (Detour.setting .reach)).Converges Detour.query r plain ∧
      (start (Detour.setting .trail)).Converges Detour.query r' trailed ∧
      r.HasSolver Detour.asked (Boxes.written ⟨2⟩ ∉ ·.calls.transitions) ∧
      r'.HasSolver Detour.asked (Boxes.written ⟨2⟩ ∈ ·.calls.transitions) := by
  obtain ⟨hphase, hid, hcall⟩ := Detour.listing_reach
  obtain ⟨hphase', hid', hcall'⟩ := Detour.listing_trail
  obtain ⟨r, plain, h, hr⟩ := exists_converges hphase
  obtain ⟨r', trailed, h', hr'⟩ := exists_converges hphase'
  refine ⟨Detour.resolve_description, r, r', plain, trailed, h, h', ?_, ?_⟩
  · exact ⟨⟨1⟩, (hr.ids _).trans hid, hr.lacks_call hcall⟩
  · exact ⟨⟨1⟩, (hr'.ids _).trans hid', hr'.has_call hcall'⟩

end DemandAlias
