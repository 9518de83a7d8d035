import DemandAlias.Proofs.Run.Listing

/-!
# Converged runs are saturated

The rules by which a solver extends its automata are those of two pushdown systems
run side by side. When a run has converged, both automata of each of its solvers are
closed under these rules: a processed node passes everything it has on to its
successors, those across the edges of the final call graph included, no matter in
which order the transitions, the nodes and the edges were found.

* `Solver.Successor`: the successors of a node, with the final call graph;
* `Solver.FollowsMove`: a move is followed with everything there is to follow;
* `Run.Saturated`: a node is processed if and only if both automata reach it, and the
  moves to its successors are followed.
-/

namespace DemandAlias

open Transition (outBy_mem_topics out_mem_topics all_mem_topics)

variable {m : Node} {site : Statement}

namespace Solver

variable {ω : Type}

/-! ### Successors -/

/-- The moves into a callee. -/
def intoCallee (s : Solver ω) (n : Node) (site : Statement) (callee : Method) : List Move :=
  match s.direction with
  | .forward => Flow.Forward.intoCallee n site callee
  | .backward => Flow.Backward.intoCallee site callee

/-- The moves back to a caller. -/
def toCaller (p : Program) (s : Solver ω) (n : Node) (callee : Method) (site : Statement) :
    List Move :=
  match s.direction with
  | .forward => Flow.Forward.toCaller p n callee site
  | .backward => Flow.Backward.toCaller n callee site

/-- The move leads from `n` to a successor, when the call graph is `g`. -/
inductive Successor (c : Setting ω) (g : CallGraph) (s : Solver ω) (n : Node) : Move → Prop
  | within {m : Move} (hm : m ∈ (s.flowAt c.program n).moves) : Successor c g s n m
  | enter {site : Statement} {name : MethodName} {callee : Method} {m : Move}
      (hsite : site ∈ (s.flowAt c.program n).callSites) (hcallee : name ∈ g.callees site)
      (hdefined : c.program.method? name = some callee)
      (hincluded : c.scope.excludes name = false) (hm : m ∈ s.intoCallee n site callee) :
      Successor c g s n m
  | leave {name : MethodName} {callee : Method} {site : Statement} {m : Move}
      (hname : (s.flowAt c.program n).callersOf = some name) (hsite : site ∈ g.callers name)
      (hdefined : c.program.method? name = some callee)
      (hincluded : c.scope.excludes site.method = false)
      (hm : m ∈ s.toCaller c.program n callee site) : Successor c g s n m

/-! ### Moves followed -/

/-- Every stack of calls of `n` is one of `m`. -/
def CarriesCalls (s : Solver ω) (n m : Node) : Prop :=
  ∀ q, callAt n q ∈ s.calls.transitions → callAt m q ∈ s.calls.transitions

/-- Every stack of fields of `n` is one of `m`. -/
def CarriesFields (s : Solver ω) (n m : Node) : Prop :=
  ∀ f p, fieldAt n f p ∈ s.fields.transitions → fieldAt m f p ∈ s.fields.transitions

/-- The move from `n` is followed with every stack of `n`. -/
def FollowsMove (s : Solver ω) (n : Node) : Move → Prop
  | .step m => s.CarriesCalls n m ∧ s.CarriesFields n m
  | .push m (.call site) =>
    (∀ q, callAt n q ∈ s.calls.transitions →
      callAt m (frameOf m) ∈ s.calls.transitions ∧
        ⟨frameOf m, site, q⟩ ∈ s.calls.transitions) ∧ s.CarriesFields n m
  | .pop m (.call site) =>
    (∀ q, callAt n q ∈ s.calls.transitions →
      if q = s.bottom then callAt m q ∈ s.calls.transitions
      else ∀ q', ⟨q, site, q'⟩ ∈ s.calls.transitions → callAt m q' ∈ s.calls.transitions) ∧
      s.CarriesFields n m
  | .push m (.field g) =>
    s.CarriesCalls n m ∧ ∀ f p, fieldAt n f p ∈ s.fields.transitions →
      fieldAt m g (below m g) ∈ s.fields.transitions ∧ ⟨below m g, f, p⟩ ∈ s.fields.transitions
  | .pop m (.field g) =>
    s.CarriesCalls n m ∧ ∀ f p, fieldAt n f p ∈ s.fields.transitions → g.sees f = true →
      ∀ f' p', ⟨p, f', p'⟩ ∈ s.fields.transitions → fieldAt m f' p' ∈ s.fields.transitions

/-- The node was taken out of the queue of nodes to be processed. -/
def Processed (s : Solver ω) (n : Node) : Prop := n ∈ s.reached ∧ n ∉ s.pending.toList

end Solver

namespace Run

variable {ω : Type} [Weight ω] {c : Setting ω} {g : CallGraph} {sent : Message → Prop}
  {s : Solver ω}

/-! ### Rules of finished solvers -/

namespace Finished

open Solver

variable {n source : Node} {f : Field} {p : State}

variable (h : Finished c g sent s)
include h

theorem reached_iff (n : Node) :
    n ∈ s.reached ↔ (∃ q, callAt n q ∈ s.calls.transitions) ∧
      ∃ f p, fieldAt n f p ∈ s.fields.transitions := by
  rw [h.sound.reached]
  refine ⟨fun hn => ⟨h.sound.callReached hn.1, h.sound.fieldReached hn.2⟩, ?_⟩
  rintro ⟨⟨q, hq⟩, f, p, hp⟩
  obtain ⟨w, -, hcalls⟩ := h.call h.sound.callReach hq (all_mem_topics _)
  have hfields := h.field h.sound.fieldReach hp (all_mem_topics _)
  exact ⟨hcalls _ mem_cons_self, hfields _ mem_cons_self⟩

theorem carriesCalls (hk : s.calls.Listens (.outBy (.single n.var) n.stmt) (.step source m)) :
    s.CarriesCalls n m := by
  intro q hq
  obtain ⟨w, -, hmade⟩ := h.call hk hq (outBy_mem_topics _)
  exact hmade _ mem_cons_self

theorem pushesCall (hk : s.calls.Listens (.outBy (.single n.var) n.stmt) (.push source m site))
    {q : State} (hq : callAt n q ∈ s.calls.transitions) :
    callAt m (frameOf m) ∈ s.calls.transitions ∧ ⟨frameOf m, site, q⟩ ∈ s.calls.transitions := by
  obtain ⟨w, -, hmade⟩ := h.call hk hq (outBy_mem_topics _)
  exact ⟨hmade _ mem_cons_self, hmade _ (mem_cons_of_mem _ mem_cons_self)⟩

/-- A return waits for the frames below the one it leaves, and goes on in each of them. -/
theorem popsCall (hk : s.calls.Listens (.outBy (.single n.var) n.stmt) (.pop source m site))
    {q : State} (hq : callAt n q ∈ s.calls.transitions) :
    if q = s.bottom then callAt m q ∈ s.calls.transitions
    else ∀ q', ⟨q, site, q'⟩ ∈ s.calls.transitions → callAt m q' ∈ s.calls.transitions := by
  obtain ⟨w, -, hmade⟩ := h.call hk hq (outBy_mem_topics _)
  have hsplit : (callAt n q).target = q := rfl
  split
  · next hbottom =>
    simp only [CallRule.changes, if_pos (hsplit.trans hbottom)] at hmade
    exact hmade _ mem_cons_self
  · next hbottom =>
    simp only [CallRule.changes, if_neg (hsplit ▸ hbottom)] at hmade
    intro q' hq'
    have hwaits : s.calls.Listens (.outBy q site) _ := hmade _ mem_cons_self
    obtain ⟨w', -, hmade'⟩ := h.call hwaits hq' (outBy_mem_topics _)
    exact hmade' _ mem_cons_self

theorem carriesFields (hk : s.fields.Listens (.out (.located n)) (.step m)) :
    s.CarriesFields n m :=
  fun _ _ hp => h.field hk hp (out_mem_topics _) _ mem_cons_self

theorem pushesField {field : Field} (hk : s.fields.Listens (.out (.located n)) (.push m field))
    (hp : fieldAt n f p ∈ s.fields.transitions) :
    fieldAt m field (below m field) ∈ s.fields.transitions ∧
      ⟨below m field, f, p⟩ ∈ s.fields.transitions := by
  have hmade := h.field hk hp (out_mem_topics _)
  exact ⟨hmade _ mem_cons_self, hmade _ (mem_cons_of_mem _ mem_cons_self)⟩

theorem popMatchesField (hk : s.fields.Listens (.out p) (.popMatch m)) {p' : State}
    (hp : ⟨p, f, p'⟩ ∈ s.fields.transitions) : fieldAt m f p' ∈ s.fields.transitions :=
  h.field hk hp (out_mem_topics _) _ mem_cons_self

theorem popsField {field : Field} (hk : s.fields.Listens (.out (.located n)) (.pop m field))
    (hp : fieldAt n f p ∈ s.fields.transitions) (hsees : field.sees f = true) {f' : Field}
    {p' : State} (hp' : ⟨p, f', p'⟩ ∈ s.fields.transitions) :
    fieldAt m f' p' ∈ s.fields.transitions := by
  have hmade := h.field hk hp (out_mem_topics _)
  have hsees' : field.sees (fieldAt n f p).label = true := hsees
  simp only [FieldDone, FieldRule.changes, if_pos hsees'] at hmade
  exact h.popMatchesField (hmade _ mem_cons_self) hp'

/-- A move is followed once its two rules are registered. -/
theorem followsMove {m : Move} (hm : ∀ x ∈ m.changes n, s.Made sent x) : s.FollowsMove n m := by
  have hcall : s.calls.Listens (.outBy (.single n.var) n.stmt) (m.callRule n) := hm _ mem_cons_self
  have hfield : s.fields.Listens (.out (.located n)) m.fieldRule :=
    hm _ (mem_cons_of_mem _ mem_cons_self)
  cases m with
  | step => exact ⟨h.carriesCalls hcall, h.carriesFields hfield⟩
  | push m symbol =>
    cases symbol with
    | call => exact ⟨fun _ => h.pushesCall hcall, h.carriesFields hfield⟩
    | field => exact ⟨h.carriesCalls hcall, fun _ _ => h.pushesField hfield⟩
  | pop m symbol =>
    cases symbol with
    | call => exact ⟨fun _ => h.popsCall hcall, h.carriesFields hfield⟩
    | field =>
      exact ⟨h.carriesCalls hcall, fun _ _ hp hsees _ _ => h.popsField hfield hp hsees⟩

section

variable (hn : n ∈ s.reached) (hincluded : c.scope.excludes n.stmt.method = false) {m : Move}
  (hm : Successor c g s n m)
include hn hincluded hm

/-- The moves to the successors of a processed node have their rules. -/
theorem made_of_successor : ∀ x ∈ m.changes n, s.Made sent x := by
  obtain ⟨hnode, hcrossed⟩ := h.node hn hincluded
  intro x hx
  cases hm with
  | within hm =>
    exact hnode x (mem_append_left _ (mem_flatMap.2 ⟨m, hm, hx⟩))
  | @enter site name _ _ hsite hcallee hdefined hincluded hm =>
    refine (hcrossed (.into site) ?_).2 ⟨site, name⟩ ?_ x (mem_flatMap.2 ⟨m, ?_, hx⟩)
    · exact mem_append_left _ (mem_map.2 ⟨site, hsite, rfl⟩)
    · exact mem_map.2 ⟨name, hcallee, rfl⟩
    · cases hd : s.direction <;>
        simpa [Crossing.moves, intoCallee, hdefined, hincluded, hd] using hm
  | @leave name _ site _ hname hsite hdefined hincluded hm =>
    refine (hcrossed (.outOf name) ?_).2 ⟨site, name⟩ ?_ x (mem_flatMap.2 ⟨m, ?_, hx⟩)
    · exact mem_append_right _ (by simp [hname])
    · exact mem_map.2 ⟨site, hsite, rfl⟩
    · cases hd : s.direction <;>
        simpa [Crossing.moves, toCaller, hdefined, hincluded, hd] using hm

/-- The moves to the successors of a processed node are followed. -/
theorem followsMove_of_successor : s.FollowsMove n m :=
  h.followsMove (h.made_of_successor hn hincluded hm)

end

end Finished

/-! ### Saturated runs -/

/-- In each solver, exactly the nodes that both automata reach are processed, and moves
    to the successors of those that are not excluded are followed. -/
def Saturated (c : Setting ω) (r : Run ω) : Prop :=
  ∀ id s, r.solver? id = some s →
    (∀ n, s.Processed n ↔ (∃ q, callAt n q ∈ s.calls.transitions) ∧
      ∃ f p, fieldAt n f p ∈ s.fields.transitions) ∧
    ∀ n, s.Processed n → c.scope.excludes n.stmt.method = false →
      ∀ m, Solver.Successor c r.graph s n m → s.FollowsMove n m

theorem Complete.saturated [DecidableEq ω] {r : Run ω} (h : r.Complete c) : r.Saturated c := by
  intro id s hs
  have hfinished := h.finished hs
  refine ⟨fun n => ?_, fun n hn hincluded m hm =>
    hfinished.followsMove_of_successor hn.1 hincluded hm⟩
  rw [Solver.Processed, hfinished.idle, hfinished.reached_iff]
  exact and_iff_left not_mem_nil

/-- A converged run is saturated, whether reachability is asked for or trails. -/
theorem saturated_of_converged :
    (∀ (c : Setting Reach) (r : Run Reach), c.weighing = .reach → Reachable c r →
      r.phase = .converged → r.Saturated c) ∧
    ∀ (c : Setting Trail) (r : Run Trail), c.weighing = .trail → Reachable c r →
      r.phase = .converged → r.Saturated c := by
  refine ⟨fun c r hc h hconverged => ?_, fun c r hc h hconverged => ?_⟩
  · exact (h.complete (hc ▸ zeroFree_reach) hconverged).saturated
  · exact (h.complete (hc ▸ zeroFree_trail) hconverged).saturated

theorem saturated_sharing :
    (∃ r, Reachable (Sharing.setting .reach) r ∧ r.phase = .converged ∧
      r.Saturated (Sharing.setting .reach)) ∧
    ∃ r, Reachable (Sharing.setting .trail) r ∧ r.phase = .converged ∧
      r.Saturated (Sharing.setting .trail) := by
  obtain ⟨r, hr, hconverged⟩ := exists_reachable Sharing.converges_reach
  obtain ⟨r', hr', hconverged'⟩ := exists_reachable Sharing.converges_trail
  exact ⟨⟨r, hr, hconverged, saturated_of_converged.1 _ r rfl hr hconverged⟩,
    r', hr', hconverged', saturated_of_converged.2 _ r' rfl hr' hconverged'⟩

end Run

end DemandAlias
