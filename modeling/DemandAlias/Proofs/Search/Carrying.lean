import DemandAlias.Proofs.Search.Answer

/-!
# Values that are only copied

In a program without calls whose statements access no fields, copies are all that moves values
between locals (`Program.Carries`). A backward query asks what a local holds just before a
statement, and is answered with exactly the allocations whose values are carried there. There is
one exception: at a statement that creates a value in the local itself, the query is answered with
this statement alone, whatever the local holds before it.
-/

namespace DemandAlias

/-- What the statement of the first node puts into its local may be carried to the second node:
    along statements that may run one after the other, the local that holds it is not assigned, or
    is copied to another one that then holds it, up to just before the statement of the second
    node. -/
inductive Program.Carries (p : Program) (n : Node) : Node → Prop
  | created {t : Statement} (hn : n.stmt ∈ p.statements) (ht : t ∈ p.successors n.stmt) :
    Carries p n ⟨t, n.var⟩
  | kept {s t : Statement} {x : Local} (h : Carries p n ⟨s, x⟩) (hdefined : s.defined? ≠ some x)
      (ht : t ∈ p.successors s) : Carries p n ⟨t, x⟩
  | copied {s t : Statement} {x y : Local} (h : Carries p n ⟨s, y⟩)
      (haction : s.action = .assign x (.copy y)) (ht : t ∈ p.successors s) : Carries p n ⟨t, x⟩

theorem Flow.Backward.exists_of_mem_moves {p : Program} {n : Node} {m : Move}
    (hm : m ∈ (Backward.flow p n).moves) :
    n.stmt.allocates n.var = false ∧ ∃ s ∈ p.predecessors n.stmt, m ∈ movesOver n.var s := by
  unfold Backward.flow at hm
  split at hm
  · cases hm
  · next hn => exact ⟨eq_false_iff.2 hn, mem_flatMap.1 hm⟩

namespace Search

variable {p : Program} {q n : Node}

/-! ### What is found is carried -/

/-- What a search from `q` knows of an access that it has come to: what is carried there is carried
    on to `q`, and so is what is created there. A search from where a value is created stays
    there. -/
structure Heeds (p : Program) (q : Node) (a : Access) : Prop where
  fields : a.fields = []
  places : p.Places a.node.stmt
  carries : a.node.stmt.allocates a.node.var = false → ∀ {n}, p.Carries n a.node → p.Carries n q
  created : a.node.stmt.allocates a.node.var = true → a.node = q ∨ p.Carries a.node q
  ends : q.stmt.allocates q.var = true → a.node = q

section Heeds

variable (hp : p.IsLaidOut) (hfields : ∀ s ∈ p.statements, s.field? = none)

include hp hfields

/-- A search follows values backward over a statement. -/
theorem Heeds.move {a : Access} (h : Heeds p q a) {m : Move}
    (hm : m ∈ (Flow.Backward.flow p a.node).moves) {fields : List Field}
    (hacts : Acts m a.fields fields) : Heeds p q ⟨m.target, fields⟩ := by
  obtain ⟨hends, s, hs, hm⟩ := Flow.Backward.exists_of_mem_moves hm
  obtain ⟨hplaces, hnext, -⟩ := hp.places_of_mem_predecessors h.places hs
  have hfield := hfields s hplaces.mem_statements
  rw [h.fields] at hacts
  have hstays : q.stmt.allocates q.var = true → m.target = q := fun hq => by
    rw [h.ends hq, hq] at hends
    cases hends
  rcases Flow.Backward.eq_step_of_mem_movesOver hfield hm with ⟨hkeeps, rfl⟩ | ⟨u, haction, rfl⟩
  · cases hacts
    refine ⟨rfl, hplaces, fun hs n hn => ?_, fun hs => .inr ?_, hstays⟩
    · refine h.carries hends (.kept hn (hkeeps.resolve_right fun hcreates => ?_) hnext)
      exact Bool.false_ne_true (hs.symm.trans hcreates)
    · exact h.carries hends (.created hplaces.mem_statements hnext)
  · cases hacts
    refine ⟨rfl, hplaces, fun _ n hn => h.carries hends (.copied hn haction hnext), fun hs => ?_,
      hstays⟩
    simp [Move.target, Statement.allocates, haction, Expr.creates] at hs

theorem Heeds.steps {direction : Direction} {seed : Node} {a b : Access} (h : Heeds p q a)
    (hsteps : Steps p direction seed a b) (hdirection : direction = .backward) : Heeds p q b := by
  induction hsteps with
  | refl => exact h
  | move _ hm hacts ih =>
    subst hdirection
    exact (ih h rfl).move hp hfields hm hacts
  | shared => cases hdirection
  | stored _ _ _ _ _ ih => exact absurd (ih h rfl).fields (cons_ne_nil _ _)

end Heeds

/-! ### What is carried is found -/

/-- The search backward comes to where a value was created that is carried to its start. -/
theorem steps_of_carries (hp : p.IsLaidOut) (hnames : p.NamesDistinct)
    (hn : n.stmt.allocates n.var = true) (h : p.Carries n q) :
    p.Places q.stmt ∧ (q.stmt.allocates q.var = false →
      ∀ {seed a}, Steps p .backward seed a ⟨q, []⟩ → Steps p .backward seed a ⟨n, []⟩) := by
  induction h with
  | created hmem ht =>
    obtain ⟨hplaces, hs⟩ := hp.places_of_mem_successors (hp.places_of_mem_statements hnames hmem) ht
    refine ⟨hplaces, fun hends _ _ hsteps => hsteps.move (m := .step n) ?_ .step⟩
    exact Flow.Backward.mem_moves hs hends (Flow.Backward.step_mem_movesOver_of_allocates hn)
  | kept _ hdefined ht ih =>
    obtain ⟨hplaces, hs⟩ := hp.places_of_mem_successors ih.1 ht
    refine ⟨hplaces, fun hends _ _ hsteps => ih.2 (Statement.allocates_eq_false hdefined) ?_⟩
    exact hsteps.move
      (Flow.Backward.mem_moves hs hends (Flow.Backward.step_mem_movesOver hdefined)) .step
  | @copied s t x y _ haction ht ih =>
    obtain ⟨hplaces, hs⟩ := hp.places_of_mem_successors ih.1 ht
    refine ⟨hplaces, fun hends _ _ hsteps => ih.2 ?_ ?_⟩
    · simp [Statement.allocates, haction, Expr.creates]
    · refine hsteps.move (m := .step ⟨s, y⟩) (Flow.Backward.mem_moves hs hends ?_) .step
      simp [Flow.Backward.movesOver, haction]

/-! ### Answers -/

/-- Where the search for what a local holds just before a statement ends: at the statement, if it
    creates a value in the local, and otherwise where the values are created that are carried
    there. -/
theorem finds_iff_carries (hp : p.IsLaidOut) (hnames : p.NamesDistinct)
    (hfields : ∀ s ∈ p.statements, s.field? = none) (hq : q.stmt ∈ p.statements)
    (hn : n.stmt.allocates n.var = true) :
    Finds p .backward q ⟨n, []⟩ ↔ if q.stmt.allocates q.var then n = q else p.Carries n q := by
  have hplaces := hp.places_of_mem_statements hnames hq
  have hstart : Heeds p q ⟨q, []⟩ := ⟨rfl, hplaces, fun _ => id, fun _ => .inl rfl, fun _ => rfl⟩
  split
  · next hcreates =>
    refine ⟨fun h => (hstart.steps hp hfields h rfl).ends hcreates, ?_⟩
    rintro rfl
    exact .refl
  · next hends =>
    refine ⟨fun h => ((hstart.steps hp hfields h rfl).created hn).resolve_left ?_, fun h => ?_⟩
    · rintro rfl
      exact hends hn
    · exact (steps_of_carries hp hnames hn h).2 (eq_false_iff.2 hends) .refl

/-- A backward query is answered with the allocations whose values are carried to it, in every
    setting without excluded methods. -/
theorem mem_allocations_of_solveBackward {ω : Type} [Weight ω] [DecidableEq ω] [ZeroFree ω]
    {c : Setting ω} {d : Description} (hp : d.resolve = .ok c.program)
    (hplain : ∀ s ∈ c.program.statements, s.isCall = false ∧ s.field? = none)
    (hscope : c.scope = .everything) (hc : c.weighing.ZeroFree) {q : BackwardQuery}
    (hq : q.node.stmt ∈ c.program.statements) {result : BackwardResult}
    (hresult : (Session.solveBackward (.start c) q).1 = .ok result)
    (hconverged : result.timedOut = false) (a : ForwardQuery) :
    a ∈ result.allocations ↔ if q.node.stmt.allocates q.node.var then a.node = q.node
      else c.program.Carries a.node q.node := by
  have hlaid := isLaidOut_of_resolve hp
  obtain ⟨hphase, hallocations⟩ := mem_allocations_of_endBackward hresult hconverged
  have hfinds := mem_allocations_iff_finds hlaid (Description.fieldsNamed_of_resolve hp)
    (fun s hs => (hplain s hs).1) hscope hc hq rfl hphase a
  refine ((hallocations a).trans hfinds).trans ?_
  exact finds_iff_carries hlaid (Description.namesDistinct_of_resolve hp)
    (fun s hs => (hplain s hs).2) hq a.allocates

/-- In a program without calls whose statements access no fields, a backward query is answered with
    exactly the allocations whose values are carried to just before its statement, whether
    reachability is asked for or trails. If the statement creates a value in the local that is asked
    about, the answer is this statement alone. -/
theorem allocations_iff_carries {d : Description} {p : Program} (hp : d.resolve = .ok p)
    (hplain : ∀ s ∈ p.statements, s.isCall = false ∧ s.field? = none) (options : Options)
    (q : BackwardQuery) (hq : q.node.stmt ∈ p.statements) :
    (∀ result, (Session.solveBackward (.start ⟨p, .everything, .reach, options⟩) q).1 = .ok result →
      result.timedOut = false → ∀ a, a ∈ result.allocations ↔
        if q.node.stmt.allocates q.node.var then a.node = q.node else p.Carries a.node q.node) ∧
    ∀ result, (Session.solveBackward (.start ⟨p, .everything, .trail, options⟩) q).1 = .ok result →
      result.timedOut = false → ∀ a, a ∈ result.allocations ↔
        if q.node.stmt.allocates q.node.var then a.node = q.node else p.Carries a.node q.node := by
  refine ⟨fun result hresult hconverged => ?_, fun result hresult hconverged => ?_⟩
  · exact mem_allocations_of_solveBackward (c := ⟨p, .everything, .reach, options⟩) hp hplain rfl
      zeroFree_reach hq hresult hconverged
  · exact mem_allocations_of_solveBackward (c := ⟨p, .everything, .trail, options⟩) hp hplain rfl
      zeroFree_trail hq hresult hconverged

end Search

/-! ### An example -/

namespace Renewal

/-- Again and again, an object is copied and then another one created in its place. -/
def description : Description where
  methods := [{
    name := "Main.main"
    body := [.new "x" "A", .copy "y" "x", .new "x" "B", .branch "y" .eq (.const .null) 1] }]

def var (name : String) : Local := ⟨⟨"Main.main"⟩, name⟩

def actions : List Action :=
  [.assign (var "x") (.alloc ⟨"A"⟩), .assign (var "y") (.copy (var "x")),
    .assign (var "x") (.alloc ⟨"B"⟩), .branch ⟨var "y", .eq, .const .null⟩ 1, .ret none]

/-- The statement at a place. -/
def stmt (index : Nat) : Statement := ⟨⟨"Main.main"⟩, index, actions[index]?.getD .nop⟩

def program : Program where
  classes := []
  methods := [.ofActions ⟨"Main.main"⟩ none [] actions]
  unreachable := []

theorem resolve_description : description.resolve = .ok program := Description.resolve_method rfl

theorem plain : ∀ s ∈ program.statements, s.isCall = false ∧ s.field? = none := by decide +kernel

def setting {ω : Type} (weighing : Weighing ω) : Setting ω := ⟨program, .everything, weighing, {}⟩

/-- The two objects. -/
def first : ForwardQuery := ⟨⟨stmt 0, var "x"⟩, rfl⟩

def second : ForwardQuery := ⟨⟨stmt 2, var "x"⟩, rfl⟩

/-- What is copied at last? -/
def query : BackwardQuery := ⟨⟨stmt 4, var "y"⟩⟩

theorem carries_first : program.Carries first.node ⟨stmt 1, var "x"⟩ :=
  .created (by decide +kernel) (by decide +kernel)

theorem carries_second : program.Carries second.node ⟨stmt 1, var "x"⟩ :=
  (Program.Carries.created (t := stmt 3) (by decide +kernel) (by decide +kernel)).kept
    (by decide +kernel) (by decide +kernel)

/-- What is copied is held to the end. -/
theorem carries_query {n : Node} (h : program.Carries n ⟨stmt 1, var "x"⟩) :
    program.Carries n query.node :=
  ((h.copied (t := stmt 2) rfl (by decide +kernel)).kept (t := stmt 3) (by decide +kernel)
    (by decide +kernel)).kept (by decide +kernel) (by decide +kernel)

theorem converges_reach : ((Run.Listing.beginBackward (setting .reach) query).advance
    (setting .reach) 0 1000).phase = .converged := by
  decide +kernel

theorem converges_trail : ((Run.Listing.beginBackward (setting .trail) query).advance
    (setting .trail) 0 1000).phase = .converged := by
  decide +kernel

end Renewal

open Renewal

/-- Both objects may have been copied. -/
theorem Search.allocations_renewal :
    (∃ result, (Session.solveBackward (.start (setting .reach)) query).1 =
      .ok result ∧ first ∈ result.allocations ∧ second ∈ result.allocations) ∧
    ∃ result, (Session.solveBackward (.start (setting .trail)) query).1 =
      .ok result ∧ first ∈ result.allocations ∧ second ∈ result.allocations := by
  obtain ⟨hreach, htrail⟩ := allocations_iff_carries resolve_description plain {}
    query (by decide +kernel)
  have hfirst := carries_query carries_first
  have hsecond := carries_query carries_second
  constructor
  · obtain ⟨result, hresult, hconverged, -⟩ :=
      Run.exists_backwardResult converges_reach (by decide)
    have hiff := hreach result hresult hconverged
    exact ⟨result, hresult, (hiff _).2 hfirst, (hiff _).2 hsecond⟩
  · obtain ⟨result, hresult, hconverged, -⟩ :=
      Run.exists_backwardResult converges_trail (by decide)
    have hiff := htrail result hresult hconverged
    exact ⟨result, hresult, (hiff _).2 hfirst, (hiff _).2 hsecond⟩

/-- Just before the second object is created, the local may hold the first one, but the answer to
    the query there is the second one alone. -/
theorem Search.not_mem_allocations_renewal : description.resolve = .ok program ∧
    program.Carries first.node second.node ∧
    ∃ result, (Session.solveBackward (.start (setting .reach)) ⟨second.node⟩).1 =
        .ok result ∧ result.timedOut = false ∧
      ∀ a, a ∈ result.allocations ↔ a.node = second.node := by
  obtain ⟨result, hresult, hconverged, -⟩ := Run.exists_backwardResult
    (c := setting .reach) (q := ⟨second.node⟩) (n := 100) (by decide +kernel) (by decide)
  have hcarries := carries_first.kept (t := stmt 2) (by decide +kernel)
    (by decide +kernel)
  exact ⟨resolve_description, hcarries, result, hresult, hconverged,
    mem_allocations_of_solveBackward (c := setting .reach) resolve_description
      plain rfl zeroFree_reach (by decide +kernel) hresult hconverged⟩

end DemandAlias
