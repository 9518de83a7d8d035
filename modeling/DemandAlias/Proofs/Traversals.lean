import DemandAlias.Proofs.Description.ControlFlow
import DemandAlias.Proofs.Dispatch
import DemandAlias.Proofs.Program.CallGraph
import DemandAlias.Proofs.Solver.Recorder

/-!
# Every watcher meets every edge once

Solvers share the call graph, and all may add edges to it at any time. Whatever the order in which
nodes start to watch, edges come and solvers catch up with them: right after it has caught up, a
solver has let every node that watches a crossing follow every edge of it once, and nothing else
(`Session.meetsOnce_of_resolve`).
-/

namespace DemandAlias

variable {ω : Type}

namespace Solver

/-- A node leads to no crossing twice. -/
theorem nodup_crossings {p : Program} (hp : p.IsLaidOut) (s : Solver ω) (n : Node) :
    (s.flowAt p n).crossings.Nodup := by
  have hsites : (s.flowAt p n).callSites.Nodup := by
    rw [flowAt_eq]
    cases s.direction with
    | forward =>
      simp only [Program.flow, Flow.Forward.flow]
      grind
    | backward =>
      simp only [Program.flow, Flow.Backward.flow]
      split
      · exact nodup_nil
      refine List.Nodup.filter _ ?_
      unfold Program.predecessors
      split
      · next m hm =>
        -- Predecessors come in the order of the body, whose statements are all different.
        have hlaid := hp m (Program.mem_methods_of_method? hm)
        refine (hlaid.increasing_body.sublist (hlaid.predecessors_sublist _)).imp ?_
        rintro s _ hlt rfl
        exact Nat.lt_irrefl _ hlt
      · exact nodup_nil
  refine List.nodup_append.2 ⟨hsites.map fun _ _ => Crossing.into.inj, ?_, by simp⟩
  cases (s.flowAt p n).callersOf <;> simp

/-- What is to be followed: a node that is processed and not excluded enters the callees of the
    call sites it leads to, and goes back to the callers of the method whose callers it asks for. -/
inductive Due (c : Setting ω) (g : CallGraph) (s : Solver ω) : Traversal → Prop
  | enter {n : Node} {site : Statement} {m : MethodName} (hn : s.Processed n)
      (hincluded : c.scope.excludes n.stmt.method = false)
      (hsite : site ∈ (s.flowAt c.program n).callSites) (hm : m ∈ g.callees site) :
    Due c g s ⟨.into site, n, ⟨site, m⟩⟩
  | leave {n : Node} {m : MethodName} {site : Statement} (hn : s.Processed n)
      (hincluded : c.scope.excludes n.stmt.method = false)
      (hm : (s.flowAt c.program n).callersOf = some m) (hsite : site ∈ g.callers m) :
    Due c g s ⟨.outOf m, n, ⟨site, m⟩⟩

theorem due_iff {c : Setting ω} {g : CallGraph} {s : Solver ω} {t : Traversal} :
    s.Due c g t ↔ s.Processed t.node ∧ c.scope.excludes t.node.stmt.method = false ∧
      t.crossing ∈ (s.flowAt c.program t.node).crossings ∧ t.edge ∈ t.crossing.edges g := by
  constructor
  · rintro (⟨hn, hincluded, hsite, hm⟩ | ⟨hn, hincluded, hm, hsite⟩)
    · exact ⟨hn, hincluded, by simp [Flow.crossings, hsite], CallGraph.Grows.mem_edges_into.2 hm⟩
    · exact ⟨hn, hincluded, by simp [Flow.crossings, hm], CallGraph.Grows.mem_edges_outOf.2 hsite⟩
  · obtain ⟨x, n, e⟩ := t
    rintro ⟨hn, hincluded, hx, he⟩
    cases x with
    | into site =>
      obtain ⟨m, hm, rfl⟩ := mem_map.1 he
      exact .enter hn hincluded (by simpa [Flow.crossings] using hx) hm
    | outOf m =>
      obtain ⟨site, hsite, rfl⟩ := mem_map.1 he
      exact .leave hn hincluded (by simpa [Flow.crossings] using hx) hsite

end Solver

/-- The record tells what is to be followed, and nothing else, each once. -/
def Recorder.MeetsOnce (c : Setting ω) (g : CallGraph) (r : Recorder ω) : Prop :=
  ∀ t, (r.solver.Due c g t → r.log.count t = 1) ∧ (t ∈ r.log → r.solver.Due c g t)

namespace Run

/-- The records of all solvers are faithful, and the edges are listed once. -/
structure Recorded (c : Setting ω) (log : SolverId → List Traversal) (r : Run ω) : Prop where
  tidy : r.graph.Tidy
  faithful : ∀ {id s}, r.solver? id = some s → Recorder.Faithful c r.graph ⟨s, log id⟩
  fresh : ∀ {id}, r.solver? id = none → log id = []

/-- The run comes from `r₀`, and the log tells for each solver which edges were followed. Solvers
    catch up and serve their queues in any order, and others may add edges at any time. -/
inductive Logs [Weight ω] [DecidableEq ω] (c : Setting ω) (r₀ : Run ω) :
    Run ω → (SolverId → List Traversal) → Prop
  | start : Logs c r₀ r₀ fun _ => []
  | edge {r log} (h : Logs c r₀ r log) (site : Statement) (m : MethodName) :
    Logs c r₀ (r.addEdge site m) log
  | refresh {r log} (h : Logs c r₀ r log) {id : SolverId} {s : Solver ω}
      (hs : r.solver? id = some s) :
    Logs c r₀ (r.modifySolver id fun s => s.refresh c r.graph)
      (Function.update log id (Recorder.refresh c r.graph ⟨s, log id⟩).log)
  | serve {r log} (h : Logs c r₀ r log) {id : SolverId} {s : Solver ω}
      (hs : r.solver? id = some s) (queue : WorkQueue) :
    Logs c r₀ (r.serveSolver c id queue) (Function.update log id
      (Recorder.serve c r.graph ⟨{ s with last := queue }, log id⟩ queue).log)
  | note {r log} (h : Logs c r₀ r log) (turn : Turn) {phase : Phase}
      (hphase : r.phase = phase ∨ r.phase = .running) : Logs c r₀ { r with turn, phase } log

variable {c : Setting ω} {r₀ r r' : Run ω} {log : SolverId → List Traversal} {id : SolverId}
  {s : Solver ω}

namespace Recorded

variable (h : r.Recorded c log)
include h

theorem modifySolver {f : Solver ω → Solver ω} {l : List Traversal} (hs : r.solver? id = some s)
    (hl : Recorder.Faithful c r.graph ⟨f s, l⟩) :
    (r.modifySolver id f).Recorded c (Function.update log id l) := by
  refine ⟨h.tidy, fun {id' s'} hs' => ?_, fun {id'} hnone => ?_⟩
  · rcases solver?_modifySolver_cases hs' with ⟨s', rfl, hs'', rfl⟩ | ⟨hne, hs''⟩
    · cases hs.symm.trans hs''
      rwa [Function.update_self]
    · rw [Function.update_of_ne (Ne.symm hne)]
      exact h.faithful hs''
  · rw [solver?_modifySolver] at hnone
    split at hnone
    · next heq => simp [← heq, hs] at hnone
    · next hne => exact (Function.update_of_ne (Ne.symm hne) ..).trans (h.fresh hnone)

theorem addEdge (site : Statement) (m : MethodName) : (r.addEdge site m).Recorded c log :=
  ⟨h.tidy.addEdge site m, fun hs => (h.faithful hs).grows (.addEdge ..), h.fresh⟩

variable [Weight ω] [DecidableEq ω]

theorem change (id : SolverId) (xs : List (Change ω)) :
    (r.modifySolver id fun s => s.makeAll xs).Recorded c log := by
  cases hs : r.solver? id with
  | none => rwa [modifySolver_eq_self fun s hs' => nomatch hs.symm.trans hs']
  | some =>
    rw [← Function.update_eq_self id log]
    exact h.modifySolver hs ((h.faithful hs).makeAll xs)

theorem updates {A : Change ω → Prop} (hr : Updates A r r') : r'.Recorded c log := by
  induction hr with
  | refl => exact h
  | change _ id _ ih => exact ih.change id [_]
  | create _ _ ih =>
    refine ⟨ih.tidy, fun {id s} hs => ?_, fun {id} hnone => ?_⟩
    · rw [solver?_create] at hs
      split at hs
      · next heq =>
        rw [ih.fresh (Array.getElem?_eq_none (Nat.le_of_eq heq.symm)), ← some.inj hs]
        exact .start ..
      · exact ih.faithful hs
    · rw [solver?_create] at hnone
      split at hnone
      · cases hnone
      · exact ih.fresh hnone
  | @register r' _ x _ _ id xs _ ih =>
    have hnote : Recorded c log { r' with registered := r'.registered.insert x } := { ih with }
    exact hnote.change id xs
  | addEdge _ _ ih => exact ih.addEdge ..
  | note _ _ _ _ _ _ ih => exact { ih with }

end Recorded

variable [Weight ω] [DecidableEq ω]

theorem Scheduled.logs (h : Scheduled c r₀ r) : ∃ log, Logs c r₀ r log := by
  induction h with
  | start => exact ⟨_, .start⟩
  | @refresh r _ id ih =>
    obtain ⟨log, hlog⟩ := ih
    cases hs : r.solver? id with
    | none =>
      rw [modifySolver_eq_self fun s hs' => nomatch hs.symm.trans hs']
      exact ⟨log, hlog⟩
    | some => exact ⟨_, hlog.refresh hs⟩
  | serve _ hs _ _ ih => exact ih.elim fun _ hlog => ⟨_, hlog.serve hs _⟩
  | turn _ turn ih => exact ih.elim fun _ hlog => ⟨_, hlog.note turn (.inl rfl)⟩

variable [ZeroFree ω] (hc : c.weighing.ZeroFree) (hp : c.program.IsLaidOut)
  (h₀ : r₀.Kept c Nothing) (hr₀ : r₀.Recorded c fun _ => []) (h : Logs c r₀ r log)
include hc hp h₀ hr₀ h

theorem Logs.recorded : r.Kept c Nothing ∧ r.Recorded c log := by
  induction h with
  | start => exact ⟨h₀, hr₀⟩
  | edge _ site m ih =>
    have hl := leads_addEdge ih.1.toCore site m
    exact ⟨(ih.1.proceeds hl ⟨⟨rfl, rfl⟩, rfl, rfl⟩).kept, ih.2.addEdge site m⟩
  | @refresh r log _ id s hs ih =>
    have hrefresh := (ih.2.faithful hs).refresh
    refine ⟨(ih.1.refreshSolver id).kept, ih.2.modifySolver hs ?_⟩
    rwa [← Recorder.solver_refresh (r := ⟨s, log id⟩)]
  | @serve r log _ id s hs queue ih =>
    refine ⟨(ih.1.serveSolver hc hs queue).kept, Recorded.updates ?_
      (updates_serveSolver hc ih.1 hs (k := 0) fun m _ => Nat.zero_le _)⟩
    let last : Recorder ω := ⟨{ s with last := queue }, log id⟩
    have hlast : last.Faithful c r.graph := { ih.2.faithful hs with }
    have hserve := hlast.serve queue (Solver.nodup_crossings hp _)
    have hsolver : _ = s.serveQueue c r.graph queue := Recorder.solver_serve (r := last) queue
    have htaken := ih.2.modifySolver
      (f := fun s => { s.serveQueue c r.graph queue with outbox := [] }) hs
      (l := (last.serve c r.graph queue).log) (by rw [← hsolver]; exact { hserve with })
    exact { htaken with }
  | @note r log _ turn phase hphase ih =>
    have hgrows : Grows r { r with turn, phase } :=
      { Grows.refl r with failed := fun ⟨n, hn⟩ => ⟨n, by grind⟩ }
    exact ⟨ih.1.note hgrows rfl rfl ⟨⟨rfl, rfl⟩, rfl, rfl⟩ rfl, { ih.2 with }⟩

/-- Right after it catches up, a solver has followed what is to be followed. -/
theorem Logs.meetsOnce (hfailed : ¬r.Failed) (hs : r.solver? id = some s) :
    (Recorder.refresh c r.graph ⟨s, log id⟩).MeetsOnce c r.graph := by
  obtain ⟨hkept, hrecorded⟩ := h.recorded hc hp h₀ hr₀
  have hfaithful := (hrecorded.faithful hs).refresh
  obtain ⟨hfresh, hseen, -⟩ := (hkept.kept hs).refresh
  rw [← Recorder.solver_refresh (r := ⟨s, log id⟩)] at hfresh hseen
  have hquiet : (Recorder.refresh c r.graph ⟨s, log id⟩).solver.outbox = [] := by
    rw [Recorder.solver_refresh, Solver.outbox_refresh]
    exact hkept.quiet hs
  generalize Recorder.refresh c r.graph ⟨s, log id⟩ = rec at hfaithful hfresh hseen hquiet ⊢
  -- Had a node been reported, the run would have failed.
  have hreported : ∀ {n}, rec.solver.Processed n → Solver.IsReported c n = false := by
    intro n hn
    rcases (hfresh.settled.nodes hn.1).resolve_left hn.2 with hm | hdone
    · rcases hm with hm | hm | hm
      · rw [hquiet] at hm
        cases hm
      · exact hm.elim
      · exact absurd hm hfailed
    · exact hdone.1
  intro t
  have hcount := hfaithful.count t
  rw [Solver.due_iff]
  refine ⟨fun ⟨hn, hincluded, hx, he⟩ => ?_, fun ht => ?_⟩
  · have hwatch := (hfaithful.watcher t.crossing t.node).2 ⟨hn, hreported hn, hincluded, hx⟩
    have hcaught := hfresh.fresh hseen _ (hfresh.watching.watched hwatch)
    rw [hcount, List.take_of_length_le hcaught, (hfaithful.nodup _).count, if_pos hwatch,
      (hrecorded.tidy.nodup_edges _).count, if_pos he]
  · have hpos := List.count_pos_iff.2 ht
    rw [hcount] at hpos
    have hwatch := List.count_pos_iff.1 (Nat.pos_of_mul_pos_right hpos)
    have he := List.count_pos_iff.1 (Nat.pos_of_mul_pos_left hpos)
    obtain ⟨hn, -, hincluded, hx⟩ := (hfaithful.watcher _ _).1 hwatch
    exact ⟨hn, hincluded, hx, List.mem_of_mem_take he⟩

end Run

namespace Session

/-- Every run of the query has a log, and whatever else may happen, each solver of a run has
    followed what is to be followed right after it catches up with the call graph. -/
def MeetsOnce [Weight ω] [DecidableEq ω] (session : Session ω) (q : Query) : Prop :=
  (∀ r, session.Runs q r → ∃ log, Run.Logs session.setting (session.begin q) r log) ∧
  ∀ r log, Run.Logs session.setting (session.begin q) r log → ¬r.Failed →
    ∀ id s, r.solver? id = some s →
      let refreshed := Recorder.refresh session.setting r.graph ⟨s, log id⟩
      refreshed.solver = s.refresh session.setting r.graph ∧
        refreshed.MeetsOnce session.setting r.graph

theorem meetsOnce_of_tidy [Weight ω] [DecidableEq ω] [ZeroFree ω] {session : Session ω}
    (hc : session.setting.weighing.ZeroFree) (hp : session.setting.program.IsLaidOut)
    (hgraph : session.graph.Tidy) (q : Query) : session.MeetsOnce q := by
  refine ⟨fun r hr => ?_, fun r log h hfailed id s hs => ⟨Recorder.solver_refresh, ?_⟩⟩
  · have hfollows : Run.Follows session.setting (session.begin q) r := by
      induction hr with
      | begin => exact .inl .start
      | tick elapsed hr ih => exact ih.tick (hr.orderly hc) elapsed
    rcases hfollows with h | h
    · exact h.logs
    · exact h.logs.imp fun _ hlog => hlog.note r.turn (.inr rfl)
  · have hempty : Run.Recorded session.setting (fun _ => []) { graph := session.graph } :=
      ⟨hgraph, fun hs => (nomatch hs), fun _ => rfl⟩
    -- The first solvers have followed nothing, as their logs say.
    have hbegin := (Run.passage_updates (A := fun _ => True)).start session q
    exact h.meetsOnce hc hp (Run.orderly_begin session q).1.toKept (hempty.updates hbegin) hfailed
      hs

/-- Every watcher meets every edge once, whatever the call graph is at first. -/
theorem meetsOnce_of_resolve {d : Description} {p : Program} (hp : d.resolve = .ok p)
    (scope : Scope) (options : Options) (start : Option Program) (es : List CallEdge) (q : Query) :
    (⟨⟨p, scope, .reach, options⟩, .built start es⟩ : Session Reach).MeetsOnce q ∧
      (⟨⟨p, scope, .trail, options⟩, .built start es⟩ : Session Trail).MeetsOnce q := by
  have hlaid := isLaidOut_of_resolve hp
  have htidy := CallGraph.tidy_built start es
  exact ⟨meetsOnce_of_tidy zeroFree_reach hlaid htidy q,
    meetsOnce_of_tidy zeroFree_trail hlaid htidy q⟩

open Pets

/-- The listing of a run that has caught up with what is called on the object. -/
def caughtUp : Run.Listing Reach :=
  (Run.Listing.beginForward (Pets.setting .reach) query).advance (Pets.setting .reach) 0 44

/-- The object is followed into what is called on it. -/
def entering : Traversal := ⟨.into (stmt 1), ⟨stmt 1, var "x"⟩, ⟨stmt 1, ⟨"Cat.call"⟩⟩⟩

/-- The object is called where it is watched before it is known what is called. That is entered
    once. -/
theorem meetsOnce_pets : description.resolve = .ok program ∧
    (start (Pets.setting .trail)).MeetsOnce (.forward query) ∧ ∃ r log s,
      Run.Logs (Pets.setting .reach) ((start (Pets.setting .reach)).begin (.forward query)) r log ∧
      r.solver? ⟨0⟩ = some s ∧
      (Recorder.refresh (Pets.setting .reach) r.graph ⟨s, log ⟨0⟩⟩).log.count entering = 1 := by
  obtain ⟨⟨hlogs, hmeets⟩, htrail⟩ : (start (Pets.setting .reach)).MeetsOnce (.forward query) ∧
      (start (Pets.setting .trail)).MeetsOnce (.forward query) :=
    meetsOnce_of_resolve resolve_description .everything { onTheFly := true } none [] _
  obtain ⟨r, hr, hlisted⟩ : ∃ r, (start (Pets.setting .reach)).Runs (.forward query) r ∧
    r.ListedBy caughtUp := exists_runs (Pets.setting .reach) (.forward query) 44
  obtain ⟨hedge, hrunning, hany⟩ : entering.edge ∈ caughtUp.edges ∧ caughtUp.phase = .running ∧
      (caughtUp.solver? ⟨0⟩).any fun s => s.edgesSeen = caughtUp.edges.length ∧
        s.direction = .forward ∧ entering.node ∈ s.reached ∧ entering.node ∉ s.pending := by
    decide +kernel
  obtain ⟨s, l, hs, hl, hP⟩ := hlisted.exists_solver hany
  obtain ⟨hseen, hforward, hreached, hpending⟩ := of_decide_eq_true hP
  obtain ⟨log, hlog⟩ := hlogs r hr
  refine ⟨resolve_description, htrail, r, log, s, hlog, hs, ?_⟩
  have hfailed := Run.not_failed (hlisted.phase.trans hrunning)
  have hdue := ((hmeets r log hlog hfailed ⟨0⟩ s hs).2 entering).1
  rw [Recorder.refresh, if_pos (hl.edgesSeen.trans (hseen.trans hlisted.edges.size.symm))] at hdue ⊢
  rw [← hl.reached] at hreached
  rw [← hl.pending] at hpending
  refine hdue (.enter ⟨hreached, hpending⟩ rfl ?_
    (List.contains_iff_mem.1 ((hlisted.edges.hasEdge _ _).2 hedge)))
  rw [Solver.flowAt_eq, hl.direction, hforward]
  exact mem_singleton.2 rfl

end Session

end DemandAlias
