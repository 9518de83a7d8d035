import DemandAlias.Proofs.Saturation

/-!
# Who followed which edge

A *recorder* is a solver that notes which edge of the call graph it lets which node follow. It does
what the solver does (`solver_refresh`, `solver_serve`), so what is recorded is what the solver has
done. At any time, those who watch a crossing are the nodes processed that lead to it, and each of
them has followed each edge counted as followed once (`Faithful`).
-/

namespace DemandAlias

variable {ω : Type}

/-! ### Nodes that wait -/

namespace Solver

variable {s s' : Solver ω}

/-- No node waits twice, and those that wait are reached. -/
def Queued (s : Solver ω) : Prop := s.pending.toList.Nodup ∧ ∀ n ∈ s.pending.toList, n ∈ s.reached

/-- The same nodes are processed, and they lead to the same. -/
structure Awaits (s s' : Solver ω) : Prop where
  queued : s'.Queued
  processed : ∀ n, s'.Processed n ↔ s.Processed n
  flowAt : ∀ p n, s'.flowAt p n = s.flowAt p n

theorem Queued.awaits (h : s.Queued) : Awaits s s := ⟨h, fun _ => .rfl, fun _ _ => rfl⟩

variable [Weight ω] [DecidableEq ω]

/-- A change lets at most one node wait, which is new. -/
theorem pending_make (s : Solver ω) (x : Change ω) :
    (s.make x).reached = s.reached ∧ (s.make x).pending = s.pending ∨
      ∃ n, n ∉ s.reached ∧ (s.make x).reached = s.reached.insert n ∧
        (s.make x).pending = s.pending.push n := by
  cases x with
  | reachByCalls n | reachByFields n =>
    simp only [make, reachByCalls, reachByFields, reach]
    split
    · exact .inl ⟨rfl, rfl⟩
    split
    · next h =>
      simp only [and_eq_true, Bool.not_eq_true', eq_false_iff, Ne, OrderedSet.contains_iff] at h
      exact .inr ⟨n, h.2, rfl, rfl⟩
    · exact .inl ⟨rfl, rfl⟩
  | callRequest | fieldRequest | unwind =>
    simp only [make, requestCalls, requestFields, unwind]
    split <;> exact .inl ⟨rfl, rfl⟩
  | _ => exact .inl ⟨rfl, rfl⟩

theorem Queued.make (h : s.Queued) (x : Change ω) : Awaits s (s.make x) := by
  have hflow : ∀ p n, (s.make x).flowAt p n = s.flowAt p n := fun p n => by
    rw [flowAt, flowAt, (frame_make s x).1, (frame_make s x).2.1]
  unfold Queued at h
  rcases pending_make s x with ⟨hr, hp⟩ | ⟨n, hn, hr, hp⟩
  · exact ⟨by rwa [Queued, hr, hp], fun n => by rw [Processed, hr, hp, Processed], hflow⟩
  · refine ⟨?_, fun m => ?_, hflow⟩
    · rw [Queued, hr, hp, Queue.toList_push]
      grind [OrderedSet.mem_insert]
    · rw [Processed, Processed, hr, hp, OrderedSet.mem_insert, Queue.toList_push]
      grind

theorem Makes.awaits {A : Change ω → Prop} (h : Makes A s s') (hq : s.Queued) : Awaits s s' := by
  induction h with
  | refl => exact hq.awaits
  | @make _ _ x _ ih =>
    have hx := ih.queued.make x
    exact ⟨hx.queued, fun n => (hx.processed n).trans (ih.processed n),
      fun p n => (hx.flowAt p n).trans (ih.flowAt p n)⟩
  | note _ _ _ ih => exact ⟨ih.queued, ih.processed, ih.flowAt⟩

theorem watches_makeAll (s : Solver ω) (xs : List (Change ω)) :
    (s.makeAll xs).watches = s.watches := by
  induction xs generalizing s with
  | nil => rfl
  | cons x xs ih => rw [makeAll_cons, ih, (frame_make s x).2.2.1]

end Solver

/-! ### Recorders -/

/-- A node follows an edge of a crossing. -/
structure Traversal where
  crossing : Crossing
  node : Node
  edge : CallEdge
  deriving DecidableEq

/-- A solver, with the edges followed so far, in this order. -/
structure Recorder (ω : Type) where
  solver : Solver ω
  log : List Traversal := []

namespace Recorder

section

variable (c : Setting ω) (g : CallGraph) (r : Recorder ω)

/-- Lets a node follow an edge of a crossing, and notes it. -/
def cross (x : Crossing) (n : Node) (e : CallEdge) : Recorder ω :=
  ⟨r.solver.cross c x n e, r.log ++ [⟨x, n, e⟩]⟩

/-- Lets nodes follow edges of a crossing. -/
def crossAll (x : Crossing) (nodes : List Node) (edges : List CallEdge) : Recorder ω :=
  edges.foldl (fun r e => nodes.foldl (fun r n => r.cross c x n e) r) r

/-- Does what `Solver.catchUp` does. -/
def catchUp (x : Crossing) : Recorder ω :=
  let edges := x.edges g
  let count := r.solver.watches.followedCount x
  if edges.length ≤ count then r
  else
    let nodes := r.solver.watches.nodes x
    let r := { r with solver.watches := r.solver.watches.setFollowed x edges.length }
    r.crossAll c x nodes (edges.drop count)

/-- Does what `Solver.watch` does. -/
def watch (n : Node) (x : Crossing) : Recorder ω :=
  let r := if r.solver.watches.isWatched x then r
    else { r with solver := r.solver.tell (.wanted x) }
  let r := { r with solver.watches := r.solver.watches.watch x n }
  let r := r.crossAll c x [n] ((x.edges g).take (r.solver.watches.followedCount x))
  r.catchUp c g x

/-- Does what `Solver.refresh` does. -/
def refresh : Recorder ω :=
  if r.solver.edgesSeen = g.size then r
  else
    let r := { r with solver.edgesSeen := g.size }
    r.solver.watches.inOrder.foldl (fun r x => r.catchUp c g x) r

/-- Does what `Solver.process` does. -/
def process (n : Node) : Recorder ω :=
  if Solver.IsReported c n then { r with solver := r.solver.tell (.unreachable n) }
  else
    let r := { r with solver.visited := r.solver.visited.insert n.stmt.method }
    if c.scope.excludes n.stmt.method then r
    else
      let flow := r.solver.flowAt c.program n
      let r := { r with solver := r.solver.followAll n flow.moves }
      let r := flow.crossings.foldl (fun r x => r.watch c g n x) r
      { r with solver := flow.effect.toList.foldl (fun s e => s.tellEffect n e) r.solver }

/-- Does what `Solver.serve` does. -/
def serve [Weight ω] [DecidableEq ω] : WorkQueue → Recorder ω
  | .nodes =>
    match r.solver.pending.pop? with
    | some (n, pending) => { r with solver.pending := pending }.process c g n
    | none => r
  | queue => { r with solver := r.solver.serve c g queue }

end

variable {c : Setting ω} {g g' : CallGraph} {r r' : Recorder ω} {n : Node} {x : Crossing}
  {nodes : List Node} {edges : List CallEdge}

theorem solver_crossAll : (r.crossAll c x nodes edges).solver =
    edges.foldl (fun s e => nodes.foldl (fun s n => s.cross c x n e) s) r.solver := by
  refine (List.foldl_hom solver fun r e => ?_).symm
  exact List.foldl_hom solver fun _ _ => rfl

theorem solver_catchUp : (r.catchUp c g x).solver = r.solver.catchUp c g x := by
  unfold catchUp Solver.catchUp
  dsimp only
  split
  · rfl
  · exact solver_crossAll

theorem solver_watch : (r.watch c g n x).solver = r.solver.watch c g n x := by
  unfold watch Solver.watch
  rw [solver_catchUp, solver_crossAll]
  split <;> rfl

theorem solver_refresh : (r.refresh c g).solver = r.solver.refresh c g := by
  unfold refresh Solver.refresh
  split
  · rfl
  · exact (List.foldl_hom solver fun _ _ => solver_catchUp.symm).symm

theorem solver_process : (r.process c g n).solver = r.solver.process c g n := by
  have hwatch : ∀ (r : Recorder ω) (xs : List Crossing),
      (xs.foldl (fun r x => r.watch c g n x) r).solver =
        xs.foldl (fun s x => s.watch c g n x) r.solver :=
    fun _ _ => (List.foldl_hom solver fun _ _ => solver_watch.symm).symm
  unfold process Solver.process
  change (if Solver.IsReported c n then _ else _ : Recorder ω).solver =
    if Solver.IsReported c n then _ else _
  split
  · rfl
  dsimp only
  split
  · rfl
  rw [hwatch, Flow.crossings, foldl_append, List.foldl_map, List.foldl_map]

theorem count_crossAll (t : Traversal) : (r.crossAll c x nodes edges).log.count t =
    r.log.count t + if t.crossing = x then nodes.count t.node * edges.count t.edge else 0 := by
  have hnodes : ∀ (r : Recorder ω) e, (nodes.foldl (fun r n => r.cross c x n e) r).log.count t =
      r.log.count t + if t = ⟨x, t.node, e⟩ then nodes.count t.node else 0 := by
    intro r e
    obtain ⟨y, m, e'⟩ := t
    induction nodes generalizing r with
    | nil => simp
    | cons n nodes ih =>
      rw [List.foldl_cons, ih, cross, List.count_append, List.count_singleton, List.count_cons]
      grind
  obtain ⟨y, m, e'⟩ := t
  unfold crossAll
  induction edges generalizing r with
  | nil => simp
  | cons e edges ih =>
    rw [List.foldl_cons, ih, hnodes, List.count_cons]
    grind

/-! ### What is recorded -/

/-- Whoever watches a crossing has followed the edges counted as followed, and no others. -/
structure Exact (g : CallGraph) (r : Recorder ω) : Prop where
  count_le : ∀ x : Crossing, r.solver.watches.followedCount x ≤ (x.edges g).length
  count : ∀ t : Traversal, r.log.count t = (r.solver.watches.nodes t.crossing).count t.node *
    ((t.crossing.edges g).take (r.solver.watches.followedCount t.crossing)).count t.edge

/-- Edges that are found later are not followed yet. -/
theorem Exact.grows (h : r.Exact g) (hg : g.Grows g') : r.Exact g' := by
  refine ⟨fun x => Nat.le_trans (h.count_le x) (hg.edges x).length_le, fun t => ?_⟩
  obtain ⟨rest, hrest⟩ := hg.edges t.crossing
  rw [← hrest, List.take_append_of_le_length (h.count_le t.crossing)]
  exact h.count t

/-- Besides, those who watch a crossing are the nodes processed that lead to it, each once. -/
structure Faithful (c : Setting ω) (g : CallGraph) (r : Recorder ω) : Prop extends Exact g r where
  queued : r.solver.Queued
  nodup : ∀ x, (r.solver.watches.nodes x).Nodup
  watcher : ∀ x n, n ∈ r.solver.watches.nodes x ↔ r.solver.Processed n ∧
    Solver.IsReported c n = false ∧ c.scope.excludes n.stmt.method = false ∧
    x ∈ (r.solver.flowAt c.program n).crossings

namespace Faithful

variable (h : r.Faithful c g)
include h

theorem grows (hg : g.Grows g') : r.Faithful c g' := { h with toExact := h.toExact.grows hg }

theorem of_awaits (hexact : r'.Exact g) (hs : r.solver.Awaits r'.solver)
    (hnodes : ∀ x, r'.solver.watches.nodes x = r.solver.watches.nodes x) : r'.Faithful c g where
  toExact := hexact
  queued := hs.queued
  nodup x := hnodes x ▸ h.nodup x
  watcher x n := by rw [hnodes, hs.processed, hs.flowAt, h.watcher]

end Faithful

variable [Weight ω] [DecidableEq ω]

theorem solver_serve (queue : WorkQueue) :
    (r.serve c g queue).solver = r.solver.serve c g queue := by
  cases queue with
  | nodes =>
    simp only [serve, Solver.serve]
    cases r.solver.pending.pop? with
    | none => rfl
    | some => exact solver_process
  | _ => rfl

theorem watches_crossAll : (r.crossAll c x nodes edges).solver.watches = r.solver.watches := by
  rw [solver_crossAll, Solver.foldl_cross, Solver.watches_makeAll]

namespace Exact

variable (h : r.Exact g)
include h

theorem makeAll (xs : List (Change ω)) :
    Exact g { r with solver := r.solver.makeAll xs } := by
  refine ⟨?_, ?_⟩ <;> rw [Solver.watches_makeAll]
  exacts [h.count_le, h.count]

/-- Other watches are exact if what they count more at a crossing is followed. -/
theorem crossAll {w : Watches} (hle : w.followedCount x ≤ (x.edges g).length)
    (hother : ∀ y, x ≠ y → w.nodes y = r.solver.watches.nodes y ∧
      w.followedCount y = r.solver.watches.followedCount y)
    (hx : ∀ n e, (w.nodes x).count n * ((x.edges g).take (w.followedCount x)).count e =
      (r.solver.watches.nodes x).count n *
          ((x.edges g).take (r.solver.watches.followedCount x)).count e +
        nodes.count n * edges.count e) :
    Exact g ({ r with solver.watches := w }.crossAll c x nodes edges) := by
  refine ⟨fun y => ?_, fun t => ?_⟩
  · rw [watches_crossAll]
    by_cases hy : x = y
    · exact hy ▸ hle
    · exact (hother y hy).2 ▸ h.count_le y
  · rw [watches_crossAll, count_crossAll]
    refine (congrArg (· + _) (h.count t)).trans ?_
    split
    · next heq => rw [heq, hx]
    · next hne => rw [(hother _ (Ne.symm hne)).1, (hother _ (Ne.symm hne)).2, Nat.add_zero]

theorem catchUp (x : Crossing) : (r.catchUp c g x).Exact g ∧
    ∀ y, (r.catchUp c g x).solver.watches.nodes y = r.solver.watches.nodes y := by
  unfold Recorder.catchUp
  dsimp only
  split
  · exact ⟨h, fun _ => rfl⟩
  have hcount := Solver.followedCount_setFollowed r.solver.watches x
  refine ⟨h.crossAll ?_ (fun y hy => ⟨rfl, ?_⟩) fun n e => ?_, fun y => ?_⟩
  · exact Nat.le_of_eq ((hcount ..).trans (if_pos rfl))
  · rw [hcount, if_neg hy]
  · rw [hcount, if_pos rfl, List.take_length, ← Nat.mul_add, ← List.count_append,
      List.take_append_drop]
    rfl
  · rw [watches_crossAll]
    rfl

theorem watch (n : Node) (x : Crossing) : (r.watch c g n x).Exact g ∧
    ∀ y, (r.watch c g n x).solver.watches.nodes y =
      r.solver.watches.nodes y ++ if x = y then [n] else [] := by
  obtain ⟨r₁, hr₁⟩ : ∃ r₁, r₁ = if r.solver.watches.isWatched x then r
    else { r with solver := r.solver.tell (.wanted x) } := ⟨_, rfl⟩
  obtain ⟨hwatches, h₁⟩ : r₁.solver.watches = r.solver.watches ∧ r₁.Exact g := by
    rw [hr₁]
    split
    exacts [⟨rfl, h⟩, ⟨rfl, h.count_le, h.count⟩]
  -- A node that comes later first follows what the others have, then all of them go on.
  have hjoin : Exact g ({ r₁ with solver.watches := r₁.solver.watches.watch x n }.crossAll c x [n]
      ((x.edges g).take (r₁.solver.watches.followedCount x))) := by
    refine h₁.crossAll (h₁.count_le x) (fun y hy => ⟨?_, rfl⟩) fun m e => ?_
    · rw [Solver.nodes_watch, if_neg hy, List.append_nil]
    · rw [Solver.nodes_watch, if_pos rfl, List.count_append, Nat.add_mul]
      rfl
  obtain ⟨hexact, hnodes⟩ := hjoin.catchUp (c := c) x
  rw [Recorder.watch, ← hr₁, ← hwatches]
  refine ⟨hexact, fun y => (hnodes y).trans ?_⟩
  rw [watches_crossAll]
  exact Solver.nodes_watch ..

theorem foldl_watch (n : Node) {xs : List Crossing} (hxs : xs.Nodup) :
    Exact g (xs.foldl (fun r x => r.watch c g n x) r) ∧
      ∀ y, (xs.foldl (fun r x => r.watch c g n x) r).solver.watches.nodes y =
        r.solver.watches.nodes y ++ if y ∈ xs then [n] else [] := by
  induction xs generalizing r with
  | nil => exact ⟨h, fun y => by simp⟩
  | cons x xs ih =>
    obtain ⟨hx, hxs⟩ := nodup_cons.1 hxs
    obtain ⟨h₁, hnodes₁⟩ := h.watch (c := c) n x
    obtain ⟨h₂, hnodes₂⟩ := ih h₁ hxs
    refine ⟨h₂, fun y => (hnodes₂ y).trans ?_⟩
    rw [hnodes₁]
    grind

theorem refresh : (r.refresh c g).Exact g ∧
    ∀ y, (r.refresh c g).solver.watches.nodes y = r.solver.watches.nodes y := by
  unfold Recorder.refresh
  split
  · exact ⟨h, fun _ => rfl⟩
  refine List.foldlRecOn (motive := fun r' : Recorder ω => r'.Exact g ∧
    ∀ y, r'.solver.watches.nodes y = r.solver.watches.nodes y) _ _
    ⟨⟨h.count_le, h.count⟩, fun _ => rfl⟩ fun r' ⟨h, hnodes⟩ x _ => ?_
  exact (h.catchUp x).imp_right fun hnodes' y => (hnodes' y).trans (hnodes y)

theorem process (hn : (r.solver.flowAt c.program n).crossings.Nodup) :
    (r.process c g n).Exact g ∧ ∀ y, (r.process c g n).solver.watches.nodes y =
      r.solver.watches.nodes y ++ if Solver.IsReported c n = false ∧
        c.scope.excludes n.stmt.method = false ∧ y ∈ (r.solver.flowAt c.program n).crossings
      then [n] else [] := by
  unfold Recorder.process
  split
  · next hreported =>
    exact ⟨⟨h.count_le, h.count⟩, fun y => by simp [hreported, Solver.tell]⟩
  dsimp only
  split
  · next hexcluded => exact ⟨⟨h.count_le, h.count⟩, fun y => by simp [hexcluded]⟩
  next hreported hexcluded =>
  rw [Solver.followAll_eq, Solver.foldl_tellEffect]
  have hvisit : Exact g { r with solver.visited := r.solver.visited.insert n.stmt.method } :=
    ⟨h.count_le, h.count⟩
  obtain ⟨hwatch, hnodes⟩ := (hvisit.makeAll _).foldl_watch (c := c) n hn
  refine ⟨hwatch.makeAll _, fun y => ?_⟩
  rw [Solver.watches_makeAll]
  refine (hnodes y).trans ?_
  simp [Solver.watches_makeAll, hreported, hexcluded]

end Exact

namespace Faithful

theorem start (id : SolverId) (direction : Direction) (seed : Node) :
    Faithful c g { solver := .start id direction seed } := by
  have hnodes : ∀ x, (Solver.start id direction seed : Solver ω).watches.nodes x = [] :=
    fun _ => get_empty _
  refine ⟨⟨fun x => ?_, fun t => ?_⟩, ⟨nodup_nil, fun _ hn => hn⟩, fun x => ?_, fun x n => ?_⟩
  · exact Nat.le_trans (Nat.le_of_eq (Watches.followedCount_empty x)) (Nat.zero_le _)
  · rw [hnodes]
    exact (Nat.zero_mul _).symm
  · rw [hnodes]
    exact nodup_nil
  · rw [hnodes]
    exact iff_of_false not_mem_nil fun h => not_mem_nil h.1.1

variable (h : r.Faithful c g)
include h

theorem makeAll (xs : List (Change ω)) : Faithful c g { r with solver := r.solver.makeAll xs } :=
  h.of_awaits (h.toExact.makeAll xs)
    ((Solver.makes_makeAll (A := fun _ => True) r.solver fun _ _ => trivial).awaits h.queued)
    fun x => by rw [Solver.watches_makeAll]

theorem refresh : (r.refresh c g).Faithful c g := by
  obtain ⟨hexact, hnodes⟩ := h.toExact.refresh (c := c)
  refine h.of_awaits hexact ?_ hnodes
  rw [solver_refresh]
  rcases Solver.makes_refresh c g r.solver with ⟨-, heq⟩ | ⟨-, hmakes⟩
  · rw [heq]
    exact h.queued.awaits
  · exact { hmakes.awaits h.queued with }

/-- A node that is processed has waited, and watches from then on. -/
theorem process {pending : Queue Node} (hpop : r.solver.pending.pop? = some (n, pending))
    (hn : (r.solver.flowAt c.program n).crossings.Nodup) :
    Faithful c g ({ r with solver.pending := pending }.process c g n) := by
  have hlist := Queue.toList_of_pop?_eq_some hpop
  obtain ⟨hnodup, hreached⟩ := h.queued
  rw [hlist] at hnodup hreached
  obtain ⟨hnew, hnodup⟩ := nodup_cons.1 hnodup
  have hexact : Exact g { r with solver.pending := pending } := ⟨h.count_le, h.count⟩
  obtain ⟨hexact', hnodes⟩ := hexact.process (c := c) hn
  have hs := (Solver.makes_process c g { r.solver with pending } n).awaits
    ⟨hnodup, fun m hm => hreached m (mem_cons_of_mem n hm)⟩
  rw [← solver_process (r := { r with solver.pending := pending })] at hs
  -- It watches nothing yet, since those who watch are processed.
  have hwaits : ¬r.solver.Processed n := fun hp => hp.2 (hlist ▸ mem_cons_self)
  have hprocessed : ∀ m, Solver.Processed { r.solver with pending } m ↔
      r.solver.Processed m ∨ m = n := by
    intro m
    rw [Solver.Processed, Solver.Processed, hlist]
    grind
  refine ⟨hexact', hs.queued, fun x => ?_, fun x m => ?_⟩
  · rw [hnodes]
    have hnodup := h.nodup x
    have hnot : n ∉ r.solver.watches.nodes x := fun hm => hwaits ((h.watcher x n).1 hm).1
    split <;> grind
  · rw [hnodes, hs.processed, hs.flowAt, hprocessed, mem_append]
    refine (or_congr_left (h.watcher x m)).trans ?_
    change _ ∨ m ∈ (if _ ∧ _ ∧ x ∈ (r.solver.flowAt c.program n).crossings then _ else _) ↔
      _ ∧ _ ∧ _ ∧ x ∈ (r.solver.flowAt c.program m).crossings
    grind

theorem serve (queue : WorkQueue) (hn : ∀ n, (r.solver.flowAt c.program n).crossings.Nodup) :
    (r.serve c g queue).Faithful c g := by
  cases queue with
  | calls =>
    simp only [Recorder.serve, Solver.serve]
    split
    · next d calls _ =>
      have htaken : Faithful c g { r with solver.calls := calls } := { h with }
      rw [Solver.applyCallRule_eq]
      exact htaken.makeAll _
    · exact h
  | fields =>
    simp only [Recorder.serve, Solver.serve]
    split
    · next d fields _ =>
      have htaken : Faithful c g { r with solver.fields := fields } := { h with }
      rw [Solver.applyFieldRule_eq]
      exact htaken.makeAll _
    · exact h
  | nodes =>
    simp only [Recorder.serve]
    split
    · next n pending hpop => exact h.process hpop (hn n)
    · exact h

end Faithful

end Recorder

end DemandAlias
