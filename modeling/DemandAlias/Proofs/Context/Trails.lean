import DemandAlias.Proofs.Context.Walks
import DemandAlias.Proofs.Run.Evaluation

/-!
# Trails are exact

In a program that does not access fields, the trail of a node tells of all walks of the
pushdown system that come to the node: its nodes are those of the first one of them, by
length and then by the order of nodes (`nodes_isLeast_of_mem_table`), and each of them takes
the outcomes of branches that the trail knows (`branches_of_mem_conditions`). So a node is left
out for its trail only if every walk to it takes a branch that cannot be taken.
-/

namespace DemandAlias.Pushdown

open Solver
open Weighing (exists_of_contradicts)

/-! ### Outcomes of branches -/

/-- The hop goes from a branch to a statement that this outcome leads to, and not the other one. -/
def Branches (p : Program) (o : Outcome) (n m : Node) : Prop :=
  m.stmt ∈ p.successors n.stmt ∧ ∃ condition place, n.stmt.action = .branch condition place ∧
    match o with
    | .taken => m.stmt.index = place ∧ m.stmt.index ≠ n.stmt.index + 1
    | .skipped => m.stmt.index = n.stmt.index + 1 ∧ m.stmt.index ≠ place
    | .both => False

theorem branches_of_outcome? {p : Program} {g : CallGraph} {seed n : Node} {move : Move} {o : Outcome}
    (h : Leads p g seed n move) (ho : Weighing.outcome? n move.target = some o) :
    Branches p o n move.target := by
  unfold Weighing.outcome? at ho
  split at ho
  · next condition place haction =>
    -- A branch is neither a call nor a return.
    have hsuccessor : move.target.stmt ∈ p.successors n.stmt := by
      cases h with
      | within hm => exact (Flow.Forward.accesses_of_mem_moves hm).1
      | enter hsite => simp [Flow.Forward.flow, haction] at hsite
      | leave hname => simp [Flow.Forward.flow, haction] at hname
    refine ⟨hsuccessor, condition, place, haction, ?_⟩
    dsimp only at ho
    split at ho
    · next htaken =>
      cases ho
      exact htaken
    · split at ho
      · next hskipped =>
        cases ho
        exact hskipped
      · cases ho
  · cases ho

/-! ### The weights of a converged run -/

theorem private_of_accessesField {ω : Type} [Weight ω] {c : Setting ω} (hp : c.program.IsLaidOut)
    (hstatements : ∀ s ∈ c.program.statements, s.accessesField = false)
    (hresolved : c.options.onTheFly = false) (g : CallGraph) (seed : Node) :
    Run.Private (stacked c.program g seed) c g .forward seed where
  closed _ hdirection hseed := hseed ▸ closed_stacked hp hstatements hdirection
  message hm := hm.imp_right fun ⟨n, hn, _⟩ => ⟨n, hn⟩
  resolved := hresolved

section Weights

variable {d : Description} {p : Program} (hp : d.resolve = .ok p)
  (hfields : ∀ s ∈ p.statements, s.accessesField = false) {options : Options}
  (hresolved : options.onTheFly = false) {q : ForwardQuery} {result : ForwardResult Trail}
  (hresult : (Session.solveForward (.start ⟨p, .everything, .trail, options⟩) q).1 = .ok result)
  (hconverged : result.timedOut = false)

include hp hfields hresolved hresult hconverged

/-- The nodes reported are those that walks come to, with trails that tell of all of them and
    have the nodes of one, but for those that are left out. -/
theorem exists_trails : ∃ trails : Node → Option Trail,
    (∀ n w, (n, w) ∈ result.table ↔ trails n = some w ∧
      ¬(options.prune = true ∧ Weighing.trail.contradicts q w = true)) ∧
    (∀ n stack hops, Walk p (.classHierarchy p) q.node ⟨q.node, []⟩ hops ⟨n, stack⟩ →
      ∃ w, trails n = some w ∧ w.Tells hops) ∧
    ∀ n w, trails n = some w → ∃ stack hops,
      Walk p (.classHierarchy p) q.node ⟨q.node, []⟩ hops ⟨n, stack⟩ ∧
        w.nodes = hops.map Prod.snd := by
  obtain ⟨c, hc⟩ : ∃ c : Setting Trail, c = ⟨p, .everything, .trail, options⟩ := ⟨_, rfl⟩
  rw [← hc] at hresult
  obtain ⟨hphase, hforward⟩ := eq_forwardResult_of_endForward hresult hconverged
  obtain rfl : p = c.program := by rw [hc]
  have hweighing : c.weighing = .trail := by rw [hc]
  have hscope : c.scope = .everything := by rw [hc]
  have hprune : c.options.prune = options.prune := by rw [hc]
  have hzero : c.weighing.ZeroFree := hweighing ▸ zeroFree_trail
  obtain ⟨s, sent, hs, hdirection, hseed, hfinished, hwithin, hfinal, hfirst, hidle, hrecording,
      hheard⟩ :=
    exists_solver_of_private (private_of_accessesField (isLaidOut_of_resolve hp) hfields
      (by rw [hc]; exact hresolved) _ _) hzero
      ((persists_recording hweighing).and (persists_heard hzero) fun _ hI => hI.1)
      ⟨recording_start ⟨0⟩ .forward, heard_start c ⟨0⟩ .forward q.node⟩ rfl hphase
  have hbottom : s.bottom ∈ s.calls.final := (hfinal _).2 (by rw [bottom, hseed])
  have hwalk : ∀ n w, s.nodeWeights[n]? = some w → ∃ stack hops,
      Walk c.program (.classHierarchy c.program) q.node ⟨q.node, []⟩ hops ⟨n, stack⟩ ∧
        w.nodes = hops.map Prod.snd := fun n w hw =>
    exists_walk_of_nodeWeights hrecording hfinished.sound hwithin (fun q' => (hfinal q').1) hw
  rw [← hseed] at hwithin hfirst hwalk ⊢
  refine ⟨fun n => s.nodeWeights[n]?, fun n w => ?_, fun n stack hops hn => ?_, hwalk⟩
  · have htable : result.table = Run.tableOf c s q := congrArg ForwardResult.table (hforward s hs)
    -- A node with a trail is walked to, so it stands for the object itself.
    have hdirectly : s.nodeWeights[n]? = some w → s.holdsDirectly n = true := fun hw => by
      obtain ⟨stack, hops, hn, -⟩ := hwalk n w hw
      obtain ⟨-, -, -, hfield⟩ := hn.found hfinished hdirection hscope hwithin hfirst
      exact (holdsDirectly_iff hfinished.sound.fields n).2 ⟨_, hfield⟩
    rw [htable, mem_tableOf, hprune, hweighing]
    exact and_congr_right fun hw => and_iff_right (hdirectly hw)
  · have hfollows : c.weighing.Follows Trail.Tells := by
      rw [hweighing]
      exact ⟨Trail.accounting_tells, Trail.tells_step, Trail.tells_enter, Trail.tells_enter⟩
    exact hn.exists_accounts hfollows hfinished hheard hidle hdirection hscope hwithin hbottom
      hfirst

/-- The nodes of the trail of a node are those of a walk to it, and no walk to it has nodes
    that count before them. -/
theorem nodes_isLeast_of_mem_table {n : Node} {w : Trail} (hn : (n, w) ∈ result.table) :
    (∃ stack hops, Walk p (.classHierarchy p) q.node ⟨q.node, []⟩ hops ⟨n, stack⟩ ∧
      w.nodes = hops.map Prod.snd) ∧
    (∀ stack hops, Walk p (.classHierarchy p) q.node ⟨q.node, []⟩ hops ⟨n, stack⟩ →
      Trail.NoLater w.nodes (hops.map Prod.snd)) ∧
    (n = q.node → w.nodes = []) := by
  obtain ⟨trails, htable, htells, hwalk⟩ := exists_trails hp hfields hresolved hresult hconverged
  obtain ⟨hw, -⟩ := (htable n w).1 hn
  have hleast : ∀ stack hops, Walk p (.classHierarchy p) q.node ⟨q.node, []⟩ hops ⟨n, stack⟩ →
      Trail.NoLater w.nodes (hops.map Prod.snd) := fun stack hops h => by
    obtain ⟨w', hw', -, hnodes, -⟩ := htells n stack hops h
    cases hw.symm.trans hw'
    exact hnodes
  refine ⟨hwalk n w hw, hleast, ?_⟩
  rintro rfl
  rcases hleast [] [] (.refl _) with hnil | hprecedes
  · exact hnil
  · exact List.length_eq_zero_iff.1 (Nat.le_zero.1 hprecedes.length_le)

/-- The outcomes of branches that the trail of a node knows are those that all walks to it take. A
    node that walks come to is left out only if all of them take an outcome that cannot come out. -/
theorem branches_of_mem_conditions :
    (∀ n w k o, (n, w) ∈ result.table → (k, o) ∈ w.conditions → o ≠ .both → ∀ stack hops,
      Walk p (.classHierarchy p) q.node ⟨q.node, []⟩ hops ⟨n, stack⟩ →
        ∃ m, (k, m) ∈ hops ∧ Branches p o k m) ∧
    ∀ n, (∃ stack hops, Walk p (.classHierarchy p) q.node ⟨q.node, []⟩ hops ⟨n, stack⟩) →
      n ∉ result.nodes → options.prune = true ∧ ∀ stack hops,
        Walk p (.classHierarchy p) q.node ⟨q.node, []⟩ hops ⟨n, stack⟩ →
          ∃ k m condition place value, (k, m) ∈ hops ∧
            k.stmt.action = .branch condition place ∧ condition.lhs = k.var ∧
            Weighing.evaluate? q condition = some value ∧
            Branches p (if value then .skipped else .taken) k m := by
  obtain ⟨trails, htable, htells, hwalk⟩ := exists_trails hp hfields hresolved hresult hconverged
  have hbranches : ∀ {n w k o}, trails n = some w → (k, o) ∈ w.conditions → o ≠ .both →
      ∀ {stack hops}, Walk p (.classHierarchy p) q.node ⟨q.node, []⟩ hops ⟨n, stack⟩ →
        ∃ m, (k, m) ∈ hops ∧ Branches p o k m := by
    intro n w k o hw hk ho stack hops h
    obtain ⟨w', hw', -, -, htaken⟩ := htells n stack hops h
    cases hw.symm.trans hw'
    obtain ⟨m, hm, houtcome⟩ := htaken k o hk ho
    obtain ⟨move, hleads, rfl⟩ := h.exists_leads hm
    exact ⟨move.target, hm, branches_of_outcome? hleads houtcome⟩
  refine ⟨fun n w k o hn hk ho stack hops h => hbranches ((htable n w).1 hn).1 hk ho h, ?_⟩
  rintro n ⟨stack, hops, h⟩ hn
  obtain ⟨w, hw, -⟩ := htells n stack hops h
  have hleft : options.prune = true ∧ Weighing.trail.contradicts q w = true :=
    Classical.byContradiction fun hkept =>
      hn (mem_map.2 ⟨(n, w), (htable n w).2 ⟨hw, hkept⟩, rfl⟩)
  refine ⟨hleft.1, fun stack hops h => ?_⟩
  obtain ⟨k, condition, place, value, haction, hlhs, hevaluate, hk⟩ := exists_of_contradicts hleft.2
  obtain ⟨m, hm, hbranch⟩ := hbranches hw hk (by cases value <;> nofun) h
  exact ⟨k, m, condition, place, value, hm, haction, hlhs, hevaluate, hbranch⟩

end Weights

/-! ### An example -/

namespace Forking

/-- There are two ways to where an object is copied, and then a test of the copy. -/
def description : Description where
  methods := [{
    name := "Main.main"
    body := [.new "x" "X", .branch "x" .eq (.const .null) 3, .copy "z" "x", .copy "y" "x",
      .branch "y" .ne (.const .null) 6, .jump 5, .jump 6] }]

def var (name : String) : Local := ⟨⟨"Main.main"⟩, name⟩

def actions : List Action :=
  [.assign (var "x") (.alloc ⟨"X"⟩), .branch ⟨var "x", .eq, .const .null⟩ 3,
    .assign (var "z") (.copy (var "x")), .assign (var "y") (.copy (var "x")),
    .branch ⟨var "y", .ne, .const .null⟩ 6, .jump 5, .jump 6]

/-- The statement at a place. -/
def stmt (index : Nat) : Statement := ⟨⟨"Main.main"⟩, index, actions[index]?.getD .nop⟩

/-- The local of this name at a place. -/
def node (index : Nat) (name : String) : Node := ⟨stmt index, var name⟩

def program : Program where
  classes := []
  methods := [.ofActions ⟨"Main.main"⟩ none [] actions]
  unreachable := []

theorem resolve_description : description.resolve = .ok program := Description.resolve_method rfl

def query : ForwardQuery := ⟨node 0 "x", rfl⟩

def setting : Setting Trail := ⟨program, .everything, .trail, { prune := true }⟩

/-- The shorter way to the copy. -/
theorem walk_copy : Walk program (.classHierarchy program) (node 0 "x") ⟨node 0 "x", []⟩
    [(node 0 "x", node 1 "x"), (node 1 "x", node 3 "x"), (node 3 "x", node 4 "y")]
    ⟨node 4 "y", []⟩ :=
  have hbranch : Walk program (.classHierarchy program) (node 0 "x") ⟨node 0 "x", []⟩
      [(node 0 "x", node 1 "x")] ⟨node 1 "x", []⟩ :=
    .tail (.refl _) (.within (.within (by decide +kernel)))
  have hcopy : Walk program (.classHierarchy program) (node 0 "x") ⟨node 0 "x", []⟩
      [(node 0 "x", node 1 "x"), (node 1 "x", node 3 "x")] ⟨node 3 "x", []⟩ :=
    hbranch.tail (.within (.within (by decide +kernel)))
  hcopy.tail (.within (.within (by decide +kernel)))

/-- To where the copy is said to be null. -/
theorem walk_null : Walk program (.classHierarchy program) (node 0 "x") ⟨node 0 "x", []⟩
    [(node 0 "x", node 1 "x"), (node 1 "x", node 3 "x"), (node 3 "x", node 4 "y"),
      (node 4 "y", node 5 "y")] ⟨node 5 "y", []⟩ :=
  walk_copy.tail (.within (.within (by decide +kernel)))

/-- To where it is said not to be null. -/
theorem walk_some : Walk program (.classHierarchy program) (node 0 "x") ⟨node 0 "x", []⟩
    [(node 0 "x", node 1 "x"), (node 1 "x", node 3 "x"), (node 3 "x", node 4 "y"),
      (node 4 "y", node 6 "y")] ⟨node 6 "y", []⟩ :=
  walk_copy.tail (.within (.within (by decide +kernel)))

/-- The run of the query. -/
def listing : Run.Listing Trail := (Run.Listing.beginForward setting query).advance setting 0 1000

/-- The trail to the copy. -/
def copied : Trail := .path [node 1 "x", node 3 "x", node 4 "y"] .none

/-- The trail from the copy by an outcome of the test. -/
def tested (index : Nat) (o : Outcome) : Trail :=
  .path [node 1 "x", node 3 "x", node 4 "y", node index "y"] (.single (node 4 "y") o)

theorem evaluates : listing.phase = .converged ∧ ((listing.solver? ⟨0⟩).any fun l => l.isFlat &&
    ((l.weightAt? (node 4 "y") == some copied && l.holdsDirectly (node 4 "y")) &&
    (l.weightAt? (node 6 "y") == some (tested 6 .taken) && l.holdsDirectly (node 6 "y")) &&
    l.weightAt? (node 5 "y") == some (tested 5 .skipped))) = true := by
  decide +kernel

/-- The copy is reported, and so is where it is tested not to be null, but not where it is
    tested to be. -/
theorem exists_result : ∃ result,
    (Session.solveForward (.start setting) query).1 = .ok result ∧ result.timedOut = false ∧
      (node 4 "y", copied) ∈ result.table ∧ (node 6 "y", tested 6 .taken) ∈ result.table ∧
      node 5 "y" ∉ result.nodes := by
  obtain ⟨result, s, l, hl, hresult, hconverged, -, -, htable, hlisted, hweights⟩ :=
    Run.exists_solver_of_listing zeroFree_trail evaluates.1 (by decide) evaluates.2 rfl
  simp only [and_eq_true, beq_iff_eq] at hl
  obtain ⟨⟨⟨hcopied, hdirectly⟩, htaken, hdirectly'⟩, hskipped⟩ := hl
  refine ⟨result, hresult, hconverged, ?_, ?_, ?_⟩
  · rw [htable, mem_tableOf, hlisted.holdsDirectly]
    exact ⟨hweights _ _ _ hcopied rfl (by decide), hdirectly, by decide⟩
  · rw [htable, mem_tableOf, hlisted.holdsDirectly]
    exact ⟨hweights _ _ _ htaken rfl (by decide), hdirectly', by decide⟩
  · intro hmem
    obtain ⟨⟨n, w⟩, hw, rfl⟩ := mem_map.1 hmem
    rw [htable, mem_tableOf] at hw
    obtain ⟨hw, -, hkept⟩ := hw
    cases hw.symm.trans (hweights _ _ _ hskipped rfl (by decide))
    exact hkept (by decide)

end Forking

/-- Of the two ways to the copy, the shorter one is told. -/
theorem nodes_isLeast_forking : ∃ result w,
    (Session.solveForward (.start Forking.setting) Forking.query).1 = .ok result ∧
      result.timedOut = false ∧ (Forking.node 4 "y", w) ∈ result.table ∧
      Trail.NoLater w.nodes [Forking.node 1 "x", Forking.node 3 "x", Forking.node 4 "y"] := by
  obtain ⟨result, hresult, hconverged, hcopied, -⟩ := Forking.exists_result
  refine ⟨result, _, hresult, hconverged, hcopied, ?_⟩
  exact (nodes_isLeast_of_mem_table Forking.resolve_description (by decide +kernel) rfl hresult
    hconverged hcopied).2.1 [] _ Forking.walk_copy

/-- The test is passed where the copy is followed on, and where it fails the copy is left out. -/
theorem branches_forking : ∃ result w,
    (Session.solveForward (.start Forking.setting) Forking.query).1 = .ok result ∧
      result.timedOut = false ∧ (Forking.node 6 "y", w) ∈ result.table ∧
      (Forking.node 4 "y", .taken) ∈ w.conditions ∧
      (∃ m, (Forking.node 4 "y", m) ∈ [(Forking.node 0 "x", Forking.node 1 "x"),
        (Forking.node 1 "x", Forking.node 3 "x"), (Forking.node 3 "x", Forking.node 4 "y"),
        (Forking.node 4 "y", Forking.node 6 "y")] ∧
          Branches Forking.program .taken (Forking.node 4 "y") m) ∧
      Forking.node 5 "y" ∉ result.nodes ∧ Forking.setting.options.prune = true := by
  obtain ⟨result, hresult, hconverged, -, htaken, hleft⟩ := Forking.exists_result
  obtain ⟨hknown, hpruned⟩ := branches_of_mem_conditions Forking.resolve_description
    (by decide +kernel) rfl hresult hconverged
  refine ⟨result, _, hresult, hconverged, htaken, by decide +kernel, ?_, hleft,
    (hpruned _ ⟨[], _, Forking.walk_null⟩ hleft).1⟩
  exact hknown _ _ (Forking.node 4 "y") .taken htaken (by decide +kernel) nofun [] _
    Forking.walk_some

end DemandAlias.Pushdown
