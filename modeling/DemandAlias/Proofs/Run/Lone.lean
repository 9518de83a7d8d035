import DemandAlias.Proofs.Run.Convergence

/-!
# Runs in which nothing is passed on

If the solver of a query has nothing to tell others but that edges of the call graph are
wanted, or that something unreachable was reached, and calls are not resolved on the fly,
then the run stays with that solver and its call graph. What bounds the solver then bounds
the run (`maintained_lone`).
-/

namespace DemandAlias.Run

variable {id : SolverId}

variable {ω : Type} {b : Bound ω} {g : CallGraph} {direction : Direction} {seed : Node} {r : Run ω}

/-- All solvers of the run have this direction and this seed and are within the bound,
    and its call graph is `g`. -/
structure Lone (b : Bound ω) (g : CallGraph) (direction : Direction) (seed : Node)
    (r : Run ω) : Prop where
  graph : r.graph = g
  solver : ∀ {id s}, r.solver? id = some s → s.direction = direction ∧ s.seed = seed ∧ s.Within b

theorem Lone.note (h : r.Lone b g direction seed) {r' : Run ω} (hgraph : r'.graph = r.graph)
    (hsolvers : r'.solvers = r.solvers) : r'.Lone b g direction seed :=
  ⟨hgraph.trans h.graph, fun hs => h.solver (by rwa [solver?, hsolvers] at hs)⟩

theorem Lone.modifySolver (h : r.Lone b g direction seed) {f : Solver ω → Solver ω}
    (hf : ∀ {s}, r.solver? id = some s →
      (f s).direction = s.direction ∧ (f s).seed = s.seed ∧ (f s).Within b) :
    (r.modifySolver id f).Lone b g direction seed := by
  refine ⟨h.graph, fun {id' s'} hs' => ?_⟩
  rcases solver?_modifySolver_cases hs' with ⟨s, rfl, hs, rfl⟩ | ⟨-, hs'⟩
  · obtain ⟨hdirection, hseed, hwithin⟩ := hf hs
    obtain ⟨hdirection', hseed', -⟩ := h.solver hs
    exact ⟨hdirection.trans hdirection', hseed.trans hseed', hwithin⟩
  · exact h.solver hs'

variable [Weight ω]

/-- The bound keeps a solver to itself: it is closed, and messages ask for nothing but edges. -/
structure Private (b : Bound ω) (c : Setting ω) (g : CallGraph) (direction : Direction)
    (seed : Node) : Prop where
  closed : ∀ s : Solver ω, s.direction = direction → s.seed = seed → b.Closed c g s
  message : ∀ {m}, b.message m → (∃ x, m = .wanted x) ∨ ∃ n, m = .unreachable n
  resolved : c.options.onTheFly = false

variable [DecidableEq ω] {c : Setting ω}

/-- That edges are wanted changes nothing, and that something unreachable was reached only
    the phase of the run. -/
theorem exists_foldl_handle_eq (hresolved : c.options.onTheFly = false) {ms : List Message}
    (hms : ∀ m ∈ ms, (∃ x, m = .wanted x) ∨ ∃ n, m = .unreachable n) (id : SolverId) (r : Run ω) :
    ∃ phase, ms.foldl (fun r m => r.handle c id m) r = { r with phase } := by
  induction ms generalizing r with
  | nil => exact ⟨r.phase, rfl⟩
  | cons m _ ih =>
    obtain ⟨phase, hphase⟩ : ∃ phase, r.handle c id m = { r with phase } := by
      rcases hms m mem_cons_self with ⟨x, rfl⟩ | ⟨n, rfl⟩
      · exact ⟨r.phase, by simp [handle, hresolved]⟩
      · exact ⟨_, rfl⟩
    rw [foldl_cons, hphase]
    exact ih (fun m' hm' => hms m' (mem_cons_of_mem _ hm')) { r with phase }

variable [ZeroFree ω]

variable (hb : Private b c g direction seed)
include hb

section

variable (hc : c.weighing.ZeroFree) (ho : r.Orderly c) (h : r.Lone b g direction seed)
  {s : Solver ω} (hs : r.solver? id = some s) (queue : WorkQueue)
include hc ho h hs queue

/-- What the solver of the run tells others changes no solver. -/
theorem Lone.exists_serveSolver_eq :
    ∃ phase, r.serveSolver c id queue = { r.takeOut c id queue with phase } := by
  obtain ⟨hdirection, hseed, hwithin⟩ := h.solver hs
  have hserved := hwithin.serveQueue hc (hb.closed s hdirection hseed) (ho.kept hs).sound queue
  rw [serveSolver_eq hs]
  refine exists_foldl_handle_eq hb.resolved (fun m hm => hb.message (hserved.message ?_)) id _
  rw [← h.graph]
  exact mem_reverse.1 hm

theorem Lone.serveSolver : (r.serveSolver c id queue).Lone b g direction seed := by
  obtain ⟨phase, heq⟩ := h.exists_serveSolver_eq hb hc ho hs queue
  have hserve : (r.modifySolver id fun s =>
      { s.serveQueue c r.graph queue with outbox := [] }).Lone b g direction seed :=
    h.modifySolver fun {s} hs => by
      obtain ⟨hdirection, hseed, hwithin⟩ := h.solver hs
      obtain ⟨-, hgrows⟩ := (ho.kept hs).serveQueue hc queue
      rw [h.graph] at hgrows ⊢
      exact ⟨hgrows.direction, hgrows.seed,
        { hwithin.serveQueue hc (hb.closed s hdirection hseed) (ho.kept hs).sound queue with
          message := fun hm => nomatch hm }⟩
  rw [heq]
  exact hserve.note rfl rfl

end

theorem Lone.refreshSolver (ho : r.Orderly c) (h : r.Lone b g direction seed) (id : SolverId) :
    (r.modifySolver id fun s => s.refresh c r.graph).Lone b g direction seed :=
  h.modifySolver fun {s} hs => by
    obtain ⟨hdirection, hseed, hwithin⟩ := h.solver hs
    obtain ⟨-, -, hgrows⟩ := (ho.kept hs).refresh
    rw [h.graph] at hgrows ⊢
    exact ⟨hgrows.direction, hgrows.seed,
      hwithin.refresh (hb.closed s hdirection hseed) (ho.kept hs).sound⟩

/-- The run stays within the bound, whatever a tick does. -/
theorem maintained_lone (hc : c.weighing.ZeroFree) :
    Maintained c fun r => r.Lone b g direction seed where
  clock h _ _ := h.note rfl rfl
  refresh ho h id := h.refreshSolver hb ho id
  serve {_} ho h {_ _} hs queue := h.serveSolver hb hc ho hs queue

end DemandAlias.Run
