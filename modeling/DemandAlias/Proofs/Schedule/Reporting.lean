import DemandAlias.Proofs.Schedule.Answers

/-!
# Asking for aliases

To report the aliases of what is asked about, a run follows all the allocations it finds, with
solvers that it might not have otherwise. These only listen to those of the query, so each of two
runs, one that reports aliases and one that does not, bounds what the other one has for the query
(`ConvergesTo.within_isolated`). They find the same allocations, and their solvers of the query
have the same, but for the numbers of solvers (`ConvergesTo.sameFindings`).

The numbers need not be the same, as they are given to the allocations too
(`Session.numbers_reported`).
-/

namespace DemandAlias

variable {ω : Type}
variable {c : Setting ω} {options : Options}

/-! ### Other options -/

/-- What an analysis does depends on few of its options: a bound is closed also if less is
    checked. -/
theorem Bound.Closed.configure [Weight ω] {b : Bound ω} {g : CallGraph} {s : Solver ω}
    (h : b.Closed c g s)
    (hcheck : options.checkUnreachable = true → c.options.checkUnreachable = true) :
    b.Closed { c with options } g s :=
  { h with
    unreachable := fun hcall hfield hchecked => h.unreachable hcall hfield (hcheck hchecked) }

theorem RunBound.Passes.configure {b : RunBound ω} {N : Naming} {sender : SolverId} {q : Query}
    {m : Message} (h : b.Passes c N sender q m)
    (hfly : options.onTheFly = true → c.options.onTheFly = true) :
    b.Passes { c with options } N sender q m := by
  cases m with
  | wanted => exact fun hflies => h (hfly hflies)
  | _ => exact h

theorem RunBound.Closed.configure [Weight ω] {b : RunBound ω} (h : b.Closed c)
    (hfly : options.onTheFly = true → c.options.onTheFly = true)
    (hcheck : options.checkUnreachable = true → c.options.checkUnreachable = true) :
    b.Closed { c with options } :=
  { h with
    closed := fun hN hq _ _ hg hdirection hseed =>
      (h.closed hN hq hg hdirection hseed).configure hcheck
    message := fun hN hq hm hlegit => (h.message hN hq hm hlegit).configure hfly }

namespace Session

open Run

/-- The session with other options. -/
def configure (session : Session ω) (options : Options) : Session ω :=
  { session with setting := { session.setting with options } }

variable {session : Session ω} {q : Query} {r r' : Run ω}
 

/-- What is found for the query by a run within the other one is found by the other one. -/
theorem allocations_of_within_isolated (hr : r.Names ⟨0⟩ q) (hr' : r'.Names ⟨0⟩ q)
    (hinj : r'.Names.Inj) {c : Setting ω} {graph : CallGraph}
    (hw : r'.Within (r.isolated c graph)) : r'.allocations.get ⟨0⟩ ⊆ r.allocations.get ⟨0⟩ := by
  intro a ha
  obtain ⟨q', hq', hallowed⟩ := hw.allocation ha
  cases hinj hr' hq'
  exact hallowed ⟨0⟩ hr

variable [Weight ω] [DecidableEq ω] [ZeroFree ω]

/-- A run that converges bounds what runs with other options have for the queries it raises. -/
theorem ConvergesTo.within_isolated (hc : session.setting.weighing.ZeroFree)
    (h : session.ConvergesTo q r) (h' : (session.configure options).ConvergesTo q r')
    (hresolved : session.setting.options.onTheFly = false)
    (hresolved' : options.onTheFly = false)
    (hcheck : options.checkUnreachable = true → session.setting.options.checkUnreachable = true) :
    r'.Within (r.isolated session.setting session.graph) := by
  have hgraph := h.grows_graph hc
  have hc' : (session.configure options).setting.weighing.ZeroFree := hc
  have hb : (r.isolated session.setting session.graph).Closed
      (session.configure options).setting := by
    refine ((h.complete hc).closed_isolated hc hresolved hgraph).configure (fun hflies => ?_) hcheck
    rw [hresolved'] at hflies
    cases hflies
  refine h'.within hc' hb (within_begin _ hb.toPassing rfl ?_ trivial ?_)
  · exact fun {x e} he => (hgraph.edges x).subset he
  · exact fun _ _ _ => .inr (.inl rfl)

/-- Runs that bound each other find the same, with solvers of the query that have the same. -/
theorem ConvergesTo.agree_of_isolated {session' : Session ω}
    (hc : session.setting.weighing.ZeroFree) (hc' : session'.setting.weighing.ZeroFree)
    (h : session.ConvergesTo q r) (h' : session'.ConvergesTo q r')
    (hw : r.Within (r'.isolated session'.setting session'.graph))
    (hw' : r'.Within (r.isolated session.setting session.graph)) :
    SameSolver r r' ∧ r.allocationsOf ⟨0⟩ = r'.allocationsOf ⟨0⟩ := by
  have hcomplete := h.complete hc
  have hcomplete' := h'.complete hc'
  have hnames := h.names hc
  have hnames' := h'.names hc'
  constructor
  · obtain ⟨s, hs, -⟩ := hcomplete.ids hnames
    obtain ⟨s', hs', -⟩ := hcomplete'.ids hnames'
    have hin := hw.solver hnames hs
    have hin' := hw'.solver hnames' hs'
    rw [solver_isolated hnames' hs'] at hin
    rw [solver_isolated hnames hs] at hin'
    -- A solver that serves others has no transitions for it.
    exact ⟨s, s', hs, hs', hcomplete.solversAgree hcomplete' hs hs'
      (fun _ ht => (hin.call ht).resolve_right False.elim)
      (fun _ ht => (hin'.call ht).resolve_right False.elim)
      fun _ => ⟨fun ht => (hin.field ht).resolve_right False.elim,
        fun ht => (hin'.field ht).resolve_right False.elim⟩⟩
  · refine sorted_eq_of_mem_iff (h.distinct hc ⟨0⟩) (h'.distinct hc' ⟨0⟩) fun a => ⟨?_, ?_⟩
    · exact fun ha => allocations_of_within_isolated hnames' hnames
        (fun _ _ _ => hcomplete.names_inj) hw ha
    · exact fun ha => allocations_of_within_isolated hnames hnames'
        (fun _ _ _ => hcomplete'.names_inj) hw' ha

/-! ### With aliases and without -/

/-- A session in which aliases are reported or are not. -/
def reporting (p : Program) (scope : Scope) (weighing : Weighing ω) (options : Options)
    (reportAliases : Bool) : Session ω :=
  start ⟨p, scope, weighing, { options with reportAliases }⟩

/-- The runs of the backward query find the same allocations, with solvers of the query that have
    the same, but for the numbers of solvers. -/
def SameFindings (session : Session ω) (r : Run ω) (session' : Session ω) (r' : Run ω)
    (q : BackwardQuery) : Prop :=
  ∃ result result', session.endBackward q r = .ok result ∧ session'.endBackward q r' = .ok result' ∧
    result.allocations = result'.allocations ∧ SameSolver r r'

theorem ConvergesTo.sameFindings {p : Program} {scope : Scope} {weighing : Weighing ω}
    {options : Options} (hc : weighing.ZeroFree) (hresolved : options.onTheFly = false)
    {q : BackwardQuery} (h : (reporting p scope weighing options true).ConvergesTo (.backward q) r)
    (h' : (reporting p scope weighing options false).ConvergesTo (.backward q) r') :
    SameFindings (reporting p scope weighing options true) r
      (reporting p scope weighing options false) r' q := by
  -- Each session is the other one with one option changed, so the runs bound each other.
  have hsilenced : ((reporting p scope weighing options true).configure
      { options with reportAliases := false }).ConvergesTo (.backward q) r' := h'
  have hreported : ((reporting p scope weighing options false).configure
      { options with reportAliases := true }).ConvergesTo (.backward q) r := h
  have hw' := h.within_isolated hc hsilenced hresolved hresolved id
  have hw := h'.within_isolated hc hreported hresolved hresolved id
  obtain ⟨hsolver, hallocations⟩ := h.agree_of_isolated hc hc h' hw hw'
  exact ⟨_, _, h.endBackward, h'.endBackward, hallocations, hsolver⟩

/-- Whether aliases are reported makes no difference to what a backward query finds: if its runs
    with aliases and without both converge, they find the same allocations, with solvers of the
    query that have the same, but for the numbers of solvers, whether reachability is asked for or
    trails. -/
theorem finds_without_aliases (p : Program) (scope : Scope) (options : Options)
    (hresolved : options.onTheFly = false) (q : BackwardQuery) :
    (∀ r r', (reporting p scope .reach options true).ConvergesTo (.backward q) r →
      (reporting p scope .reach options false).ConvergesTo (.backward q) r' →
      SameFindings (reporting p scope .reach options true) r
        (reporting p scope .reach options false) r' q) ∧
    ∀ r r', (reporting p scope .trail options true).ConvergesTo (.backward q) r →
      (reporting p scope .trail options false).ConvergesTo (.backward q) r' →
      SameFindings (reporting p scope .trail options true) r
        (reporting p scope .trail options false) r' q :=
  ⟨fun _ _ h h' => h.sameFindings zeroFree_reach hresolved h',
    fun _ _ h h' => h.sameFindings zeroFree_trail hresolved h'⟩

end Session

/-! ### An example -/

namespace Filling

/-- A box is filled by a method, and what is in it is taken unless there is no box. -/
def description : Description where
  methods := [
    { name := "Box.set"
      params := ["b", "v"]
      body := [.store "b" "f" "v"] },
    { name := "Main.main"
      body := [.new "a" "A", .new "x" "X", .call none "Box.set" [.var "x", .var "a"],
        .branch "x" .eq (.const .null) 6, .load "t" "x" "f", .jump 7, .new "t" "T", .nop] }]

def setVar (name : String) : Local := ⟨⟨"Box.set"⟩, name⟩

def var (name : String) : Local := ⟨⟨"Main.main"⟩, name⟩

def actions : List Action :=
  [.assign (var "a") (.alloc ⟨"A"⟩), .assign (var "x") (.alloc ⟨"X"⟩),
    .call ⟨.static ⟨"Box.set"⟩, [.var (var "x"), .var (var "a")]⟩,
    .branch ⟨var "x", .eq, .const .null⟩ 6, .assign (var "t") (.load (var "x") (.named "f")),
    .jump 7, .assign (var "t") (.alloc ⟨"T"⟩), .nop, .ret none]

/-- The statement at a place of the main method. -/
def stmt (index : Nat) : Statement := ⟨⟨"Main.main"⟩, index, actions[index]?.getD .nop⟩

/-- Where the box is filled. -/
def store : Statement := ⟨⟨"Box.set"⟩, 0, .store (setVar "b") (.named "f") (setVar "v")⟩

def program : Program where
  classes := []
  methods := [.ofActions ⟨"Box.set"⟩ none [setVar "b", setVar "v"] [store.action, .ret none],
    .ofActions ⟨"Main.main"⟩ none [] actions]
  unreachable := []

theorem resolve_description : description.resolve = .ok program :=
  Description.resolve_inOrder rfl rfl rfl .nil (by decide)

/-- What is taken? -/
def query : BackwardQuery := ⟨⟨stmt 7, var "t"⟩⟩

def session (reportAliases : Bool) : Session Reach :=
  .reporting program .everything .reach { timeout := none } reportAliases

/-- The run of the query. -/
def listing (reportAliases : Bool) : Run.Listing Reach :=
  (Run.Listing.begin (session reportAliases).setting (hierarchyEdges program)
    (.backward query)).advance (session reportAliases).setting 0 1000

/-- The value with which the box is filled, in the calling context of the store as the solver with
    this number has it. -/
def written (id : SolverId) : CallTransition :=
  callAt ⟨store, setVar "v"⟩
    (.generated (Solver.frameOf ⟨store, setVar "b"⟩) (.imported id))

/-- With aliases, the context of the store comes from the third solver. -/
theorem listing_reported : (listing true).phase = .converged ∧
    ((listing true).solver? ⟨0⟩).any fun s => s.calls.transitions.contains (written ⟨2⟩) := by
  decide +kernel

/-- Without aliases, there is no third solver. -/
theorem listing_unreported : (listing false).phase = .converged ∧
    ((listing false).solver? ⟨0⟩).any fun s => !s.calls.transitions.contains (written ⟨2⟩) := by
  decide +kernel

theorem exists_run {reportAliases : Bool} (h : (listing reportAliases).phase = .converged) :
    ∃ r, (session reportAliases).ConvergesTo (.backward query) r ∧
      r.ListedBy (listing reportAliases) := by
  have hgraph : (session reportAliases).graph.ListedBy (hierarchyEdges program) :=
    listedBy_classHierarchy program
  exact Session.exists_convergesTo hgraph h

end Filling

namespace Sharing

def reportingSession (reportAliases : Bool) : Session Trail :=
  .reporting program .everything .trail {} reportAliases

theorem exists_reportingRun (reportAliases : Bool) :
    ∃ r, (reportingSession reportAliases).ConvergesTo (.backward query) r := by
  have hgraph : (reportingSession reportAliases).graph.ListedBy
      (hierarchyEdges program) := listedBy_classHierarchy program
  obtain ⟨r, h, -⟩ := Session.exists_convergesTo hgraph (q := .backward query) (n := 1000) (by
    cases reportAliases with
    | true => exact converges_trail
    | false => decide +kernel)
  exact ⟨r, h⟩

end Sharing

/-- What is in a box that is filled by a method is found with aliases and without, and so is the
    trail of what is written to a field by one local and read by another one. -/
theorem Session.finds_filling_without_aliases :
    (∃ r r', (Filling.session true).ConvergesTo (.backward Filling.query) r ∧
      (Filling.session false).ConvergesTo (.backward Filling.query) r' ∧
      SameFindings (Filling.session true) r (Filling.session false) r' Filling.query) ∧
    ∃ r r', (Sharing.reportingSession true).ConvergesTo (.backward Sharing.query) r ∧
      (Sharing.reportingSession false).ConvergesTo (.backward Sharing.query) r' ∧
      SameFindings (Sharing.reportingSession true) r (Sharing.reportingSession false) r'
        Sharing.query := by
  constructor
  · obtain ⟨r, h, -⟩ := Filling.exists_run Filling.listing_reported.1
    obtain ⟨r', h', -⟩ := Filling.exists_run Filling.listing_unreported.1
    exact ⟨r, r', h, h', (finds_without_aliases Filling.program .everything { timeout := none } rfl
      Filling.query).1 r r' h h'⟩
  · obtain ⟨r, h⟩ := Sharing.exists_reportingRun true
    obtain ⟨r', h'⟩ := Sharing.exists_reportingRun false
    exact ⟨r, r', h, h', (finds_without_aliases Sharing.program .everything {} rfl
      Sharing.query).2 r r' h h'⟩

/-- The solvers need not have the same numbers: if aliases are reported, the value in the box is
    found in a calling context that comes from the third solver, which there is not otherwise. -/
theorem Session.numbers_reported : Filling.description.resolve = .ok Filling.program ∧
    ∃ r r' s s', (Filling.session true).ConvergesTo (.backward Filling.query) r ∧
      (Filling.session false).ConvergesTo (.backward Filling.query) r' ∧
      r.solver? ⟨0⟩ = some s ∧ r'.solver? ⟨0⟩ = some s' ∧
      Filling.written ⟨2⟩ ∈ s.calls.transitions ∧ Filling.written ⟨2⟩ ∉ s'.calls.transitions := by
  refine ⟨Filling.resolve_description, ?_⟩
  obtain ⟨hphase, hfirst⟩ := Filling.listing_reported
  obtain ⟨hphase', hsecond⟩ := Filling.listing_unreported
  obtain ⟨r, h, hr⟩ := Filling.exists_run hphase
  obtain ⟨r', h', hr'⟩ := Filling.exists_run hphase'
  obtain ⟨s, hs, hmem⟩ := hr.has_call hfirst
  obtain ⟨s', hs', hmem'⟩ := hr'.lacks_call hsecond
  exact ⟨r, r', s, s', h, h', hs, hs', hmem, hmem'⟩

end DemandAlias
