import DemandAlias.Proofs.Search.Completeness
import DemandAlias.Proofs.Search.Covering
import DemandAlias.Proofs.Search.Soundness

/-!
# The answer to a backward query

In a program without calls, a backward query reports exactly the allocations that its
search comes to. These include where the value was created that the local holds, if the
execution only writes to objects that no field holds. Without that condition the value may
be missed, as the search goes on from the locals that hold an object that is written to
but not from the fields that do (`Search.Steps`).
-/

namespace DemandAlias

open Session (start)

/-! ### Call graphs without calls -/

theorem CallGraph.edges_empty (x : Crossing) : x.edges CallGraph.empty = [] := by
  cases x <;> simp [Crossing.edges, callees, callers, CallGraph.empty, get_empty]

/-- Without calls, the first call graph has no edges. -/
theorem Session.edges_start {ω : Type} {c : Setting ω}
    (hcalls : ∀ s ∈ c.program.statements, s.isCall = false) (x : Crossing) :
    x.edges (start c).graph = [] := by
  have hnone : c.program.invocations = [] :=
    List.filter_eq_nil_iff.2 fun s hs => by simp [hcalls s hs]
  unfold start
  dsimp only
  split
  · exact CallGraph.edges_empty x
  · rw [classHierarchy, hnone]
    exact CallGraph.edges_empty x

namespace Search

/-- The answer of a run that has converged is what its first solver has found. -/
theorem mem_allocations_of_endBackward {ω : Type} [Weight ω] [DecidableEq ω] {session : Session ω}
    {q : BackwardQuery} {r : Run ω} {result : BackwardResult}
    (h : session.endBackward q r = .ok result) (hconverged : result.timedOut = false) :
    r.phase = .converged ∧ ∀ a, a ∈ result.allocations ↔ a ∈ r.allocations.get ⟨0⟩ := by
  unfold Session.endBackward at h
  split at h
  · cases h
  · cases h
    refine ⟨by simpa [Run.backwardResult, Run.isTimedOut] using hconverged, fun a => ?_⟩
    exact mem_mergeSort

/-- A query reports what its search comes to, in every setting without excluded methods. -/
theorem mem_allocations_iff_finds {ω : Type} [Weight ω] [DecidableEq ω] [ZeroFree ω]
    {c : Setting ω} (hp : c.program.IsLaidOut) (hnamed : c.program.FieldsNamed)
    (hcalls : ∀ s ∈ c.program.statements, s.isCall = false) (hscope : c.scope = .everything)
    (hc : c.weighing.ZeroFree) {q : BackwardQuery} (hq : q.node.stmt ∈ c.program.statements)
    {r : Run ω} (hr : r = ((start c).beginBackward q).finish c)
    (hconverged : r.phase = .converged) (a : ForwardQuery) :
    a ∈ r.allocations.get ⟨0⟩ ↔ Finds c.program .backward q.node ⟨a.node, []⟩ := by
  obtain ⟨ho, hid⟩ := Run.orderly_begin (start c) (.backward q)
  have hb : (bound ω c.program (start c).graph).Closed c := closed_bound rfl hp hnamed hcalls
  have hbegin : ((start c).begin (.backward q)).Within _ :=
    Run.within_begin (start c) hb.toPassing rfl
      (fun {x e} he => absurd he (Session.edges_start hcalls x ▸ not_mem_nil)) hq
      fun _ _ _ => .aliases
  have hnames : r.Names ⟨0⟩ (.backward q) := by
    subst hr
    exact (ho.advance hc 0 Run.ample).grows.ids hid
  have hcomplete : r.Complete c := by
    subst hr
    exact ((Run.Reachable.backward _ q).advance 0 Run.ample).complete hc hconverged
  have hwithin : r.Within (bound ω c.program (start c).graph) := by
    subst hr
    exact (Run.maintained_within hb hc).advance hc ho hbegin 0 Run.ample
  constructor
  · intro ha
    obtain ⟨q', hq', -, hfinds⟩ := hwithin.allocation ha
    cases hcomplete.names_inj hnames hq'
    exact hfinds
  · intro hfinds
    obtain ⟨s, hs, hseed, hdirection⟩ := hcomplete.ids hnames
    rw [← show s.seed = q.node from hseed] at hfinds
    exact hcomplete.mem_allocations_of_finds hscope hs hdirection hfinds

/-- A backward query in a program without calls reports exactly the allocations that its
    search comes to, and among them where the value was created that the local holds, if the
    execution only writes to objects that no field holds. -/
theorem allocations_of_converged {d : Description} {p : Program} (hp : d.resolve = .ok p)
    (hcalls : ∀ s ∈ p.statements, s.isCall = false) (options : Options) (q : BackwardQuery)
    (hq : q.node.stmt ∈ p.statements) {result : BackwardResult}
    (hresult : (Session.solveBackward (.start ⟨p, .everything, .reach, options⟩) q).1 = .ok result)
    (hconverged : result.timedOut = false) :
    (∀ a, a ∈ result.allocations ↔ Finds p .backward q.node ⟨a.node, []⟩) ∧
      ∀ {s : Statement} {m : Memory} (e : Execution p s m), e.WritesLocally →
        ∀ u v, q.node = ⟨s, u⟩ → m.locals u = some v → s.allocates u = false →
          ∃ a ∈ result.allocations, a.node = v.origin := by
  obtain ⟨c, hc⟩ : ∃ c : Setting Reach, c = ⟨p, .everything, .reach, options⟩ := ⟨_, rfl⟩
  rw [← hc] at hresult
  obtain ⟨hphase, hallocations⟩ := mem_allocations_of_endBackward hresult hconverged
  obtain rfl : p = c.program := by rw [hc]
  have hlaid := isLaidOut_of_resolve hp
  have hiff : ∀ a, a ∈ result.allocations ↔ Finds c.program .backward q.node ⟨a.node, []⟩ :=
    fun a => (hallocations a).trans (mem_allocations_iff_finds hlaid
      (Description.fieldsNamed_of_resolve hp) hcalls (by rw [hc])
      (by rw [hc]; exact zeroFree_reach) hq rfl hphase a)
  refine ⟨hiff, fun {s m} e hwrites u v hnode hu hs => ?_⟩
  obtain ⟨-, htraced⟩ := e.traced hlaid hwrites
  refine ⟨⟨v.origin, htraced.created ⟨v, hu, .nil⟩⟩, (hiff _).2 ?_, rfl⟩
  rw [hnode]
  exact htraced.finds hu hs

end Search

/-! ### An example -/

namespace Sharing

/-- What `x` and `v` hold. -/
def owner : Value := ⟨⟨stmt 0, var "x"⟩, 0⟩

def written : Value := ⟨⟨stmt 1, var "v"⟩, 0⟩

/-- The memory when the first object is created, when both are, before the field is written
    and after that. -/
def first : Memory := Memory.empty.assign (var "x") (some owner)

def filled : Memory := first.assign (var "v") (some written)

def before : Memory := filled.assign (var "w") (filled.locals (var "x"))

def after : Memory := before.write (var "x") (.named "f") (before.locals (var "v"))

theorem fresh_written : first.Fresh written where
  locals y := by
    simp only [first, Memory.assign]
    have hne : owner ≠ written := by decide
    split <;> simp [hne, Memory.empty]
  held o slot := Option.some_ne_none _ ∘ Eq.symm
  heap _ := rfl

theorem heap_after (o : Value) (slot : Slot) :
    after.heap o slot = if o = owner ∧ slot = .named "f" then some written else none := rfl

/-- No field holds the object that is written to. -/
theorem eq_nil_of_reads {o : Value} {slots : List Slot} (h : after.Reads o slots owner) :
    slots = [] := by
  cases h with
  | nil => rfl
  | @cons _ o' _ _ _ hslot h =>
    rw [heap_after] at hslot
    split at hslot
    · obtain rfl : written = o' := some.inj hslot
      have hne : written ≠ owner := by decide
      cases h with
      | cons hslot' => simp [heap_after, hne] at hslot'
    · cases hslot

/-- An execution that reads what was written. -/
theorem exists_execution : ∃ e : Execution program (stmt 5)
    (after.assign (var "y") (after.read (var "w") (.named "f"))), e.WritesLocally := by
  have hslot : (Field.named "f").covers (.named "f") = true := rfl
  have hmain : program.method? ⟨"Main.main"⟩ = some (.ofActions ⟨"Main.main"⟩ none [] actions) := rfl
  let e₀ : Execution program (stmt 0) .empty := .start hmain rfl
  let e₁ : Execution program (stmt 1) first :=
    e₀.step (.create rfl rfl rfl ⟨nofun, nofun, fun _ => rfl⟩) (by decide +kernel)
  let e₂ : Execution program (stmt 2) filled :=
    e₁.step (.create rfl rfl rfl fresh_written) (by decide +kernel)
  let e₃ : Execution program (stmt 3) before := e₂.step (.copy rfl) (by decide +kernel)
  let e₄ : Execution program (stmt 4) after := e₃.step (.store rfl hslot) (by decide +kernel)
  have he₃ : e₃.WritesLocally := by
    refine ⟨⟨⟨trivial, ?_⟩, ?_⟩, ?_⟩ <;> exact fun _ _ _ _ haction => by cases haction
  have he₄ : e₄.WritesLocally := by
    refine ⟨he₃, fun base field value o haction hbase y slots hpath => ?_⟩
    obtain ⟨o', -, hreads⟩ := hpath
    cases haction
    obtain rfl : owner = o := some.inj hbase
    exact eq_nil_of_reads hreads
  let e₅ : Execution program (stmt 5) _ := e₄.step (.load rfl hslot) (by decide +kernel)
  have he₅ : e₅.WritesLocally := ⟨he₄, fun _ _ _ _ haction => by cases haction⟩
  exact ⟨e₅, he₅⟩

end Sharing

theorem Search.allocations_sharing :
    ∃ result, (Session.solveBackward (.start (Sharing.setting .reach)) Sharing.query).1 =
        .ok result ∧ result.timedOut = false ∧
      ∃ a ∈ result.allocations, a.node = ⟨Sharing.stmt 1, Sharing.var "v"⟩ := by
  obtain ⟨result, hresult, hconverged, -⟩ :=
    Run.exists_backwardResult Sharing.converges_reach (by decide)
  obtain ⟨e, he⟩ := Sharing.exists_execution
  obtain ⟨-, hfinds⟩ := allocations_of_converged Sharing.resolve_description (by decide +kernel) {}
    Sharing.query (by decide +kernel) hresult hconverged
  exact ⟨result, hresult, hconverged, hfinds e he (Sharing.var "y") Sharing.written rfl rfl rfl⟩

/-! ### What is missed -/

namespace Cycle

/-- An object holds itself, is read from itself and then written to. -/
def description : Description where
  methods := [{
    name := "Main.main"
    body := [.new "x" "X", .store "x" "f" "x", .load "y" "x" "f", .load "z" "y" "f",
      .store "z" "k" "z", .load "r" "x" "k", .nop] }]

def var (name : String) : Local := ⟨⟨"Main.main"⟩, name⟩

def actions : List Action :=
  [.assign (var "x") (.alloc ⟨"X"⟩), .store (var "x") (.named "f") (var "x"),
    .assign (var "y") (.load (var "x") (.named "f")),
    .assign (var "z") (.load (var "y") (.named "f")), .store (var "z") (.named "k") (var "z"),
    .assign (var "r") (.load (var "x") (.named "k")), .nop, .ret none]

/-- The statement at a place. -/
def stmt (index : Nat) : Statement := ⟨⟨"Main.main"⟩, index, actions[index]?.getD .nop⟩

def program : Program where
  classes := []
  methods := [.ofActions ⟨"Main.main"⟩ none [] actions]
  unreachable := []

theorem resolve_description : description.resolve = .ok program := Description.resolve_method rfl

def object : Value := ⟨⟨stmt 0, var "x"⟩, 0⟩

/-- In the only execution all locals hold the object. -/
theorem exists_execution : ∃ (m : Memory) (_ : Execution program (stmt 6) m),
    m.locals (var "r") = some object := by
  have hf : (Field.named "f").covers (.named "f") = true := rfl
  have hk : (Field.named "k").covers (.named "k") = true := rfl
  have hmain : program.method? ⟨"Main.main"⟩ = some (.ofActions ⟨"Main.main"⟩ none [] actions) := rfl
  let e₀ : Execution program (stmt 0) .empty := .start hmain rfl
  let e₁ : Execution program (stmt 1) (Memory.empty.assign (var "x") (some object)) :=
    e₀.step (.create rfl rfl rfl ⟨nofun, nofun, fun _ => rfl⟩) (by decide +kernel)
  let e₂ : Execution program (stmt 2) _ := e₁.step (.store rfl hf) (by decide +kernel)
  let e₃ : Execution program (stmt 3) _ := e₂.step (.load rfl hf) (by decide +kernel)
  let e₄ : Execution program (stmt 4) _ := e₃.step (.load rfl hf) (by decide +kernel)
  let e₅ : Execution program (stmt 5) _ := e₄.step (.store rfl hk) (by decide +kernel)
  let e₆ : Execution program (stmt 6) _ := e₅.step (.load rfl hk) (by decide +kernel)
  exact ⟨_, e₆, rfl⟩

def setting : Setting Reach := ⟨program, .everything, .reach, {}⟩

def query : BackwardQuery := ⟨⟨stmt 6, var "r"⟩⟩

/-- The listing of the run. -/
def listing : Run.Listing Reach := (Run.Listing.beginBackward setting query).advance setting 0 1000

theorem phase_listing : listing.phase = .converged := by decide +kernel

theorem found_listing : valuesOf listing.found ⟨0⟩ = [] := by decide +kernel

end Cycle

/-- Without the condition on what is written to, a value may be missed. -/
theorem Search.allocations_cycle : Cycle.description.resolve = .ok Cycle.program ∧
    ∃ result, (Session.solveBackward (.start Cycle.setting) Cycle.query).1 = .ok result ∧
      result.timedOut = false ∧ result.allocations = [] ∧
      ∃ (m : Memory) (_ : Execution Cycle.program (Cycle.stmt 6) m),
        m.locals (Cycle.var "r") = some Cycle.object := by
  obtain ⟨result, hresult, hconverged, hallocations⟩ :=
    Run.exists_backwardResult Cycle.phase_listing (by decide)
  have hnone : result.allocations = [] := List.eq_nil_iff_forall_not_mem.2 fun a ha => by
    rw [hallocations, ← Cycle.listing, Cycle.found_listing] at ha
    cases ha
  exact ⟨Cycle.resolve_description, result, hresult, hconverged, hnone, Cycle.exists_execution⟩

end DemandAlias
