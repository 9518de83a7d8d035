import DemandAlias.Proofs.Context.Trails
import DemandAlias.Proofs.Run.Sessions
import DemandAlias.Proofs.Schedule.Reweighing
import DemandAlias.Proofs.Schedule.Sources

/-!
# What nodes are left out for

A node is left out of an answer if its trail knows a branch to come out as it cannot when the
local tested there holds the object. The branches that trails know of are those that rules of
the solver step from (`Solver.Tracing`), and at the end of a run the solver has reached all of
these. So the object is to be found in the local tested, but not always as what the local
holds: it may as well be in a field of it, if the program writes to that field
(`Session.judges_of_not_mem_nodes`). Then the test is about another object, and a node may be left
out for it though it can be reached (`Session.judges_holder`).
-/

namespace DemandAlias

variable {ω : Type} {q : ForwardQuery} {w : Trail} {n : Node} {o : Outcome} {s : Solver ω}

/-! ### Trails -/

namespace Trail

variable {known known' : Node → Outcome → Prop}

/-- The trail knows outcomes of branches only if `known` holds of them. -/
def KnowsOnly (known : Node → Outcome → Prop) (w : Trail) : Prop :=
  ∀ n o, (n, o) ∈ w.conditions → o ≠ .both → known n o

theorem KnowsOnly.mono (h : w.KnowsOnly known) (hknown : ∀ {n o}, known n o → known' n o) :
    w.KnowsOnly known' :=
  fun n o hmem ho => hknown (h n o hmem ho)

theorem knowsOnly_zero : Trail.zero.KnowsOnly known := fun _ _ hmem => nomatch hmem

theorem knowsOnly_one : (Weight.one : Trail).KnowsOnly known := fun _ _ hmem => nomatch hmem

theorem KnowsOnly.extend {a b : Trail} (ha : a.KnowsOnly known) (hb : b.KnowsOnly known) :
    (Weight.extend a b).KnowsOnly known := by
  cases a with
  | zero => exact knowsOnly_zero
  | path =>
    cases b with
    | zero => exact knowsOnly_zero
    | path =>
      intro n o hmem ho
      exact (Conditions.mem_of_mem_along hmem ho).elim (ha n o · ho) (hb n o · ho)

theorem KnowsOnly.combine {a b : Trail} (ha : a.KnowsOnly known) (hb : b.KnowsOnly known) :
    (Weight.combine a b).KnowsOnly known := by
  cases a with
  | zero =>
    cases b with
    | zero => exact knowsOnly_zero
    | path => exact hb
  | path =>
    cases b with
    | zero => exact ha
    | path => exact fun n o hmem => ha n o (Conditions.mem_of_mem_agreed hmem).1

/-- The trail of a move knows no more than how the branch it starts from comes out. -/
theorem knowsOnly_step {source target : Node}
    (h : ∀ {o}, Weighing.outcome? source target = some o → known source o) :
    (Weighing.trail.step source target).KnowsOnly known := by
  simp only [Weighing.trail]
  split
  · next o houtcome =>
    intro n o' hmem _
    cases mem_singleton.1 hmem
    exact h houtcome
  · exact fun _ _ hmem => absurd hmem not_mem_nil

end Trail

theorem Weighing.ne_both_of_isImpossible (h : isImpossible q n o = true) : o ≠ .both := by
  rintro rfl
  simp only [isImpossible] at h
  split at h
  · simp at h
  · cases h

/-! ### Solvers -/

theorem Change.Weighs.mono {P P' : ω → Prop} {x : Change ω} (h : x.Weighs P)
    (hP : ∀ {w}, P w → P' w) : x.Weighs P' := by
  cases x with
  | call => exact hP h
  | callRule _ rule =>
    cases rule with
    | popMatch => exact hP h
    | _ => trivial
  | _ => trivial

namespace Solver

/-- A rule of the solver steps from the branch to where only this outcome leads. -/
def StepsBy {ω : Type} (s : Solver ω) (n : Node) (o : Outcome) : Prop :=
  ∃ topic target, s.calls.Listens topic (.step n target) ∧ Weighing.outcome? n target = some o

theorem StepsBy.make [Weight ω] [DecidableEq ω] (h : s.StepsBy n o) (x : Change ω) :
    (s.make x).StepsBy n o := by
  obtain ⟨topic, target, hk, houtcome⟩ := h
  exact ⟨topic, target, Holds.make (x := .callRule topic _) hk x, houtcome⟩

variable {c : Setting Trail} {s : Solver Trail}

/-- The outcomes that the weights know are taken by rules of the solver. -/
structure Tracing (s : Solver Trail) : Prop where
  call : ∀ {t w}, s.calls.weight? t = some w → w.KnowsOnly s.StepsBy
  popMatch : ∀ {topic target w}, s.calls.Listens topic (.popMatch target w) → w.KnowsOnly s.StepsBy

theorem tracing_start (id : SolverId) (direction : Direction) (seed : Node) :
    (start id direction seed : Solver Trail).Tracing where
  call hw := by
    obtain ⟨-, rfl⟩ := Automaton.eq_of_weight?_seeded hw
    exact Trail.knowsOnly_one
  popMatch hk := by
    cases ((Automaton.listens_seeded ..).1 hk).2

namespace Tracing

theorem make (h : s.Tracing) {x : Change Trail} (hx : x.Weighs (Trail.KnowsOnly s.StepsBy)) :
    (s.make x).Tracing where
  call {t w} hw := by
    rcases weight?_make_cases hw with hold | ⟨v, rfl, -, rfl | ⟨old, hold, rfl⟩⟩
    · exact (h.call hold).mono (StepsBy.make · x)
    · exact Trail.KnowsOnly.mono hx (StepsBy.make · _)
    · exact ((h.call hold).combine hx).mono (StepsBy.make · _)
  popMatch hk := by
    rcases listens_make_cases hk with hk | hregisters
    · exact (h.popMatch hk).mono (StepsBy.make · x)
    · cases hregisters
      exact Trail.KnowsOnly.mono hx (StepsBy.make · _)

theorem makeAll (h : s.Tracing) {xs : List (Change Trail)}
    (hxs : ∀ x ∈ xs, x.Weighs (Trail.KnowsOnly s.StepsBy)) : (s.makeAll xs).Tracing := by
  induction xs generalizing s with
  | nil => exact h
  | cons x _ ih =>
    refine ih (h.make (hxs x mem_cons_self)) fun y hy => ?_
    exact (hxs y (mem_cons_of_mem _ hy)).mono fun hw => hw.mono (StepsBy.make · x)

/-- What a rule makes of a weight knows only outcomes that are taken. -/
theorem weighs_changes (hweighing : c.weighing = .trail) (h : s.Tracing)
    {topic : Topic State Statement} {rule : CallRule Trail} (hk : s.calls.Listens topic rule)
    (t : CallTransition) (hw : w.KnowsOnly s.StepsBy) :
    ∀ x ∈ rule.changes c s.bottom t w, x.Weighs (Trail.KnowsOnly s.StepsBy) := by
  intro x hx
  cases CallRule.yields_of_mem hx with
  | reach | unwind => trivial
  | step _ target =>
    -- The only new condition is the one of the rule itself.
    refine hw.extend ?_
    rw [hweighing]
    exact Trail.knowsOnly_step fun houtcome => ⟨topic, target, hk, houtcome⟩
  | enter =>
    rw [hweighing]
    exact fun _ _ hmem => nomatch hmem
  | frame | unwound => exact hw
  | leave | pop =>
    refine hw.extend ?_
    rw [hweighing]
    exact fun _ _ hmem => nomatch hmem
  | popMatch => exact hw.extend (h.popMatch hk)
  | request h => cases h <;> trivial

theorem weight (h : s.Tracing) (hs : s.calls.Consistent) {t : CallTransition}
    (ht : t ∈ s.calls.transitions) : (s.calls.weight t).KnowsOnly s.StepsBy :=
  h.call (hs.weight?_eq_weight ht)

/-- What the weight of a node knows is taken by rules of the solver. -/
theorem nodeWeights (h : s.Tracing) (hs : s.calls.Consistent) (hw : s.nodeWeights[n]? = some w) :
    w.KnowsOnly s.StepsBy := by
  refine nodeWeights_cases (fun _ w => w.KnowsOnly s.StepsBy) hs .combine
    (fun {n q} _ ht _ => Trail.KnowsOnly.extend ?_ (h.weight hs ht)) hw
  rcases Automaton.waysToFinal_cases (a := s.calls) (fun _ w => w.KnowsOnly s.StepsBy)
    (fun _ => Trail.knowsOnly_one) (fun ht _ hbelow => hbelow.extend (h.weight hs ht)) .combine q
    with hzero | hfound
  · rw [hzero]
    exact Trail.knowsOnly_zero
  · exact hfound

end Tracing

theorem persists_tracing (hweighing : c.weighing = .trail) : Persists c Sound Tracing where
  note h _ _ _ _ _ _ := ⟨h.call, h.popMatch⟩
  make h hx := h.make hx.weighs
  fields h _ := ⟨h.call, h.popMatch⟩
  calls {s d calls} := by
    intro hs h hpoll last
    obtain ⟨hmem, -, topic, -, hk⟩ := delivered_of_poll? hs.calls hpoll
    obtain ⟨events, rfl, -, hweight⟩ := poll?_eq_some hpoll
    have hpolled : Tracing { s with calls := { s.calls with events }, last } := ⟨h.call, h.popMatch⟩
    exact hpolled.makeAll
      (h.weighs_changes hweighing hk d.transition (hweight ▸ h.weight hs.calls hmem))

end Solver

/-! ### Sessions -/

namespace Session

/-- After queries about a program, the call graph has only edges of the program. -/
theorem hasEdge_earlier [Weight ω] [DecidableEq ω] [ZeroFree ω] {c : Setting ω}
    (hp : c.program.IsLaidOut) (hc : c.weighing.ZeroFree) {earlier : List Query}
    (hearlier : ∀ q ∈ earlier, q.node.stmt ∈ c.program.statements) :
    (earlier.foldl answer (start c)).setting = c ∧
      ∀ {x : Crossing} {e}, e ∈ x.edges (earlier.foldl answer (start c)).graph →
        c.program.HasEdge e := by
  have h : Arises c (earlier.foldl answer (start c)) :=
    List.foldlRecOn (motive := Arises c) earlier answer .start
      fun _ h q hmem => h.answer (hearlier q hmem)
  exact ⟨h.setting_eq, h.hasEdge hp hc⟩

namespace Converges

section Trails

variable {session : Session Trail} (hweighing : session.setting.weighing = .trail)
  {r : Run Trail} {result : ForwardResult Trail}
  (h : session.Converges q r result)

include hweighing h

theorem tracing : r.Everywhere Solver.Tracing := by
  obtain ⟨elapsed, n, rfl⟩ := h.advances
  have hc : session.setting.weighing.ZeroFree := hweighing ▸ zeroFree_trail
  have hbegin : (session.beginForward q).Everywhere Solver.Tracing :=
    Run.everywhere_beginForward session (Solver.tracing_start ..)
  have hmaintained := Run.maintained_everywhere hc (Solver.persists_tracing hweighing)
    Solver.tracing_start fun h => h.make Trail.knowsOnly_one
  exact hmaintained.advance hc (Run.orderly_begin session (.forward q)).1 hbegin elapsed n

/-- The branches of which a weight knows how they come out were reached. -/
theorem reached_of_mem_conditions {s : Solver Trail} (hs : r.solver? ⟨0⟩ = some s) {n k : Node}
    (hw : s.nodeWeights[n]? = some w) (hk : (k, o) ∈ w.conditions) (ho : o ≠ .both) :
    k ∈ s.reached := by
  have hc : session.setting.weighing.ZeroFree := hweighing ▸ zeroFree_trail
  have htracing := h.tracing hweighing hs
  obtain ⟨r₀, hscheduled, hrested, rfl⟩ := h.convergesTo.exists_scheduled hc
  have hsound := ((hscheduled.complete hc hrested).finished hs).sound
  obtain ⟨topic, target, hrule, houtcome⟩ := htracing.nodeWeights hsound.calls hw k o hk ho
  refine (hscheduled.reached_of_step hc hrested hs hrule).resolve_right ?_
  -- A store has no outcomes.
  rintro ⟨f, base, hstore⟩
  simp [Weighing.outcome?, hstore] at houtcome

end Trails

/-- Where the solver has come to, the object is held by the local or is in a field of what the
    local holds. -/
theorem found_of_reached [Weight ω] [DecidableEq ω] [ZeroFree ω] {p : Program}
    {session : Session ω} (hprogram : session.setting.program = p) (hp : p.IsLaidOut)
    (hgraph : ∀ {x : Crossing} {e}, e ∈ x.edges session.graph → p.HasEdge e)
    (hc : session.setting.weighing.ZeroFree) (hq : q.node.stmt ∈ p.statements) {r : Run ω}
    {result : ForwardResult ω} (h : session.Converges q r result) (hs : r.solver? ⟨0⟩ = some s)
    {k : Node} (hk : k ∈ s.reached) :
    s.holdsDirectly k = true ∨
      ∃ f state, fieldAt k f state ∈ s.fields.transitions ∧ p.Writes f := by
  obtain ⟨s', hid, hs', hconcluded, -⟩ := h.exists_concluded hc
  obtain rfl := some.inj (hs.symm.trans hs')
  obtain ⟨g, sent, hfinished⟩ := hconcluded.finished
  -- A node is reached only with a stack of fields, and its top was pushed by a store.
  obtain ⟨-, f, state, hfield⟩ := (hfinished.reached_iff k).1 hk
  obtain ⟨elapsed, n, rfl⟩ := h.advances
  have hwithin := (Runs.begin.advance elapsed n).within_asking hprogram hp hc hgraph
    (q := .forward q) hq
  rcases ((hwithin.solver hid hs).field hfield).2.eq_or_pushes with ⟨rfl, -⟩ | ⟨hpushes, -⟩
  · exact .inl ((Solver.holdsDirectly_iff hfinished.sound.fields k).2 ⟨state, hfield⟩)
  · exact .inr ⟨f, state, hfield, hpushes.2 rfl⟩

end Converges

/-- A node that holds the object is left out only if its trail knows a branch to come out as it
    cannot if the local tested there holds the object. But then what is known of the local is
    just that the object was found there: held by it, or in a field of what it holds that the
    program writes to. -/
theorem judges_of_not_mem_nodes {d : Description} {p : Program} (hp : d.resolve = .ok p)
    (scope : Scope) (options : Options) {earlier : List Query}
    (hearlier : ∀ q ∈ earlier, q.node.stmt ∈ p.statements) {q : ForwardQuery}
    (hq : q.node.stmt ∈ p.statements) {r : Run Trail} {result : ForwardResult Trail}
    (h : (earlier.foldl answer (start ⟨p, scope, .trail, options⟩)).Converges q r result)
    {s : Solver Trail} (hs : r.solver? ⟨0⟩ = some s) {n : Node} {w : Trail}
    (hw : s.nodeWeights[n]? = some w) (hn : s.holdsDirectly n = true)
    (hleft : n ∉ result.nodes) :
    options.prune = true ∧ (∃ k o, (k, o) ∈ w.conditions ∧ Weighing.isImpossible q k o = true) ∧
      ∀ k o, (k, o) ∈ w.conditions → Weighing.isImpossible q k o = true →
        k ∈ s.reached ∧ (s.holdsDirectly k = true ∨
          ∃ f state, fieldAt k f state ∈ s.fields.transitions ∧ p.Writes f) := by
  have hlaid := isLaidOut_of_resolve hp
  obtain ⟨hsetting, hgraph⟩ := hasEdge_earlier (c := ⟨p, scope, .trail, options⟩) hlaid
    zeroFree_trail hearlier
  generalize earlier.foldl answer (start ⟨p, scope, .trail, options⟩) = session at h hsetting hgraph
  have hweighing : session.setting.weighing = .trail := by rw [hsetting]
  have hc : session.setting.weighing.ZeroFree := hweighing ▸ zeroFree_trail
  have hcontradicts : options.prune = true ∧ Weighing.trail.contradicts q w = true := by
    obtain ⟨s', -, hs', -, rfl⟩ := h.exists_concluded hc
    obtain rfl := some.inj (hs.symm.trans hs')
    refine Classical.byContradiction fun hkept => hleft (mem_map.2 ⟨(n, w), ?_, rfl⟩)
    refine (Pushdown.mem_tableOf ..).2 ⟨hw, hn, ?_⟩
    rwa [hsetting]
  obtain ⟨hprune, hany⟩ := hcontradicts
  refine ⟨hprune, ?_, fun k o hk himpossible => ?_⟩
  · obtain ⟨⟨k, o⟩, hk, himpossible⟩ := any_eq_true.1 hany
    exact ⟨k, o, hk, himpossible⟩
  · have hreached := h.reached_of_mem_conditions hweighing hs hw hk
      (Weighing.ne_both_of_isImpossible himpossible)
    exact ⟨hreached, h.found_of_reached (by rw [hsetting]) hlaid hgraph hc hq hs hreached⟩

end Session

/-! ### An example -/

namespace Holding

/-- Null is put into a field of an object, which is tested not to be null before the field is
    read. -/
def description : Description where
  methods := [{
    name := "Main.main"
    body := [.const "x" .null, .new "b" "B", .store "b" "f" "x",
      .branch "b" .ne (.const .null) 5, .jump 4, .load "y" "b" "f", .jump 6] }]

def var (name : String) : Local := ⟨⟨"Main.main"⟩, name⟩

def actions : List Action :=
  [.assign (var "x") (.const .null), .assign (var "b") (.alloc ⟨"B"⟩),
    .store (var "b") (.named "f") (var "x"), .branch ⟨var "b", .ne, .const .null⟩ 5, .jump 4,
    .assign (var "y") (.load (var "b") (.named "f")), .jump 6]

/-- The statement at a place. -/
def stmt (index : Nat) : Statement := ⟨⟨"Main.main"⟩, index, actions[index]?.getD .nop⟩

/-- The local of this name at a place. -/
def node (index : Nat) (name : String) : Node := ⟨stmt index, var name⟩

def program : Program where
  classes := []
  methods := [.ofActions ⟨"Main.main"⟩ none [] actions]
  unreachable := []

theorem resolve_description : description.resolve = .ok program := Description.resolve_method rfl

def query : ForwardQuery := ⟨node 0 "x", rfl⟩

def setting : Setting Trail := ⟨program, .everything, .trail, { prune := true }⟩

/-- The run of the query. -/
def listing : Run.Listing Trail := (Run.Listing.beginForward setting query).advance setting 0 1000

/-- The trail to where the field was read, by way of the object that has it. -/
def read : Trail :=
  .path [node 1 "x", node 2 "x", node 3 "b", node 5 "b", node 6 "y"]
    (.single (node 3 "b") .taken)

theorem evaluates : listing.phase = .converged ∧ ((listing.solver? ⟨0⟩).any fun l => l.isFlat &&
    ((l.weightAt? (node 6 "y") == some read && l.holdsDirectly (node 6 "y")) &&
    !l.holdsDirectly (node 3 "b"))) = true := by
  decide +kernel

/-- What was read holds the null that was put into the field, but it is left out for the test
    of the object with that field, which does not hold it itself. -/
theorem exists_left : ∃ r result s,
    (Session.start setting).Converges query r result ∧ r.solver? ⟨0⟩ = some s ∧
      s.nodeWeights[node 6 "y"]? = some read ∧ s.holdsDirectly (node 6 "y") = true ∧
      node 6 "y" ∉ result.nodes ∧ s.holdsDirectly (node 3 "b") = false := by
  obtain ⟨result, s, l, hl, hresult, -, hs, hphase, htable, hlisted, hweights⟩ :=
    Run.exists_solver_of_listing zeroFree_trail evaluates.1 (by decide) evaluates.2 rfl
  simp only [and_eq_true, beq_iff_eq, Bool.not_eq_true'] at hl
  obtain ⟨⟨hread, hdirectly⟩, hholder⟩ := hl
  have hw := hweights _ _ _ hread rfl (by decide)
  refine ⟨_, result, s, ⟨⟨0, Run.ample, rfl⟩, hphase, hresult⟩, hs, hw, ?_, fun hmem => ?_, ?_⟩
  · rw [hlisted.holdsDirectly]
    exact hdirectly
  · obtain ⟨⟨n, w⟩, hmem, rfl⟩ := mem_map.1 hmem
    rw [htable, Pushdown.mem_tableOf] at hmem
    obtain ⟨hw', -, hkept⟩ := hmem
    cases hw'.symm.trans hw
    exact hkept (by decide)
  · rw [hlisted.holdsDirectly]
    exact hholder

end Holding

/-- What was read is left out for the test of the object with the field, which the solver has
    reached. -/
theorem Session.judges_holding : ∃ r result s,
    (Session.start Holding.setting).Converges Holding.query r result ∧
      r.solver? ⟨0⟩ = some s ∧ s.nodeWeights[Holding.node 6 "y"]? = some Holding.read ∧
      s.holdsDirectly (Holding.node 6 "y") = true ∧ Holding.node 6 "y" ∉ result.nodes ∧
      Holding.setting.options.prune = true ∧ Holding.node 3 "b" ∈ s.reached ∧
      (s.holdsDirectly (Holding.node 3 "b") = true ∨ ∃ f state,
        fieldAt (Holding.node 3 "b") f state ∈ s.fields.transitions ∧
          Holding.program.Writes f) := by
  obtain ⟨r, result, s, hconverges, hs, hw, hdirectly, hleft, -⟩ := Holding.exists_left
  have hearlier : ∀ q ∈ ([] : List Query), q.node.stmt ∈ Holding.program.statements :=
    fun _ h => nomatch h
  obtain ⟨hprune, -, hjudges⟩ := judges_of_not_mem_nodes Holding.resolve_description .everything
    { prune := true } hearlier (by decide +kernel) hconverges hs hw hdirectly hleft
  exact ⟨r, result, s, hconverges, hs, hw, hdirectly, hleft, hprune,
    hjudges (Holding.node 3 "b") .taken (by decide +kernel) (by decide +kernel)⟩

/-- The test for which a node is left out may be one of a local that does not hold the object. -/
theorem Session.judges_holder : ∃ r result s n w k o,
    (Session.start Holding.setting).Converges Holding.query r result ∧
      r.solver? ⟨0⟩ = some s ∧ s.nodeWeights[n]? = some w ∧ s.holdsDirectly n = true ∧
      n ∉ result.nodes ∧ (k, o) ∈ w.conditions ∧
      Weighing.isImpossible Holding.query k o = true ∧ s.holdsDirectly k = false := by
  obtain ⟨r, result, s, hconverges, hs, hw, hdirectly, hleft, hholder⟩ := Holding.exists_left
  exact ⟨r, result, s, Holding.node 6 "y", Holding.read, Holding.node 3 "b", .taken, hconverges,
    hs, hw, hdirectly, hleft, by decide +kernel, by decide +kernel, hholder⟩

end DemandAlias
