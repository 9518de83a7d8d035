import DemandAlias.Proofs.Solver.Stepping

/-!
# What steps are made of

Whatever a solver does besides serving an event, it makes changes one after the other, and
in between notes what it watches and visits (`Makes`). What it does as it processes a node and
catches up with the call graph is said once (`Explores`): it follows the node, asks for the
edges of crossings, and lets those who watch a crossing follow its edges (`explores_process`,
`explores_refresh`). So what holds of one change holds of these steps. None of these changes
adds a transition of a weight of its own (`makes_process`, `makes_refresh`).
-/

namespace DemandAlias

variable {ω : Type}

/-- The change brings in no weight. -/
def Change.Unweighted : Change ω → Prop
  | .call _ _ | .callRule _ (.popMatch _ _) => False
  | _ => True

namespace Solver

theorem unweighted_moveChanges (n : Node) (m : Move) :
    ∀ x ∈ m.changes n, (x : Change ω).Unweighted := by
  refine Move.forall_changes ?_ trivial
  rcases m with _ | ⟨_, _ | _⟩ | ⟨_, _ | _⟩ <;> trivial

variable [Weight ω] [DecidableEq ω]

/-- The solver `s'` comes from `s` by changes for which `A` holds, and by noting what is
    watched and visited. -/
inductive Makes (A : Change ω → Prop) (s : Solver ω) : Solver ω → Prop
  | refl : Makes A s s
  | make {s' : Solver ω} (h : Makes A s s') {x : Change ω} (hx : A x) : Makes A s (s'.make x)
  | note {s' : Solver ω} (h : Makes A s s') (watches : Watches)
      (visited : OrderedSet MethodName) : Makes A s { s' with watches, visited }

section Makes

variable {A : Change ω → Prop} {s s' s'' : Solver ω}

theorem Makes.trans (h : Makes A s s') (h' : Makes A s' s'') : Makes A s s'' := by
  induction h' with
  | refl => exact h
  | make _ hx ih => exact ih.make hx
  | note _ watches visited ih => exact ih.note watches visited

theorem makes_makeAll (s : Solver ω) {xs : List (Change ω)} (hxs : ∀ x ∈ xs, A x) :
    Makes A s (s.makeAll xs) := by
  induction xs generalizing s with
  | nil => exact .refl
  | cons x _ ih =>
    have hx : Makes A s (s.make x) := Makes.refl.make (hxs x mem_cons_self)
    exact hx.trans (ih _ fun y hy => hxs y (mem_cons_of_mem _ hy))

end Makes

/-! ### Exploring -/

/-- The change is one of `xs`, or asks for the edges of a crossing that is watched, where `W`
    says who watches what, or lets a watcher follow an edge. -/
inductive Exploring (c : Setting ω) (g : CallGraph) (direction : Direction)
    (xs : List (Change ω)) (W : Crossing → Node → Prop) : Change ω → Prop
  | node {x : Change ω} (hx : x ∈ xs) : Exploring c g direction xs W x
  | want {x : Crossing} {n : Node} (hn : W x n) :
    Exploring c g direction xs W (.message (.wanted x))
  | cross {x : Crossing} {n : Node} {e : CallEdge} {y : Change ω} (hn : W x n)
      (he : e ∈ x.edges g) (hy : y ∈ x.changes c direction n e) : Exploring c g direction xs W y

/-- The solver `s'` comes from `s` by such changes, and by noting who watches what. -/
inductive Explores (c : Setting ω) (g : CallGraph) (xs : List (Change ω))
    (W : Crossing → Node → Prop) (s : Solver ω) : Solver ω → Prop
  | refl : Explores c g xs W s s
  | make {s' : Solver ω} (h : Explores c g xs W s s') {x : Change ω}
      (hx : Exploring c g s.direction xs W x) : Explores c g xs W s (s'.make x)
  | note {s' : Solver ω} (h : Explores c g xs W s s') {watches : Watches}
      (hnew : ∀ {x n}, n ∈ watches.nodes x → W x n) : Explores c g xs W s { s' with watches }

variable {c : Setting ω} {g : CallGraph} {s s' : Solver ω}

section Explores

variable {xs : List (Change ω)} {W : Crossing → Node → Prop} (h : Explores c g xs W s s')
include h

theorem Explores.makeAll {ys : List (Change ω)}
    (hys : ∀ y ∈ ys, Exploring c g s.direction xs W y) : Explores c g xs W s (s'.makeAll ys) := by
  induction ys generalizing s' with
  | nil => exact h
  | cons y _ ih =>
    exact ih (h.make (hys y mem_cons_self)) fun z hz => hys z (mem_cons_of_mem _ hz)

theorem Explores.foldl {f : Solver ω → Crossing → Solver ω} {ys : List Crossing}
    (hf : ∀ y ∈ ys, ∀ {s'}, Explores c g xs W s s' → Explores c g xs W s (f s' y)) :
    Explores c g xs W s (ys.foldl f s') := by
  induction ys generalizing s' with
  | nil => exact h
  | cons y _ ih =>
    exact ih (hf y mem_cons_self h) fun z hz => hf z (mem_cons_of_mem _ hz)

theorem Explores.direction : s'.direction = s.direction := by
  induction h with
  | refl => rfl
  | make _ _ ih => rw [direction_make, ih]
  | note _ _ ih => exact ih

theorem Explores.makes (hxs : ∀ x ∈ xs, x.Unweighted) : Makes Change.Unweighted s s' := by
  induction h with
  | refl => exact .refl
  | make _ hx ih =>
    refine ih.make ?_
    cases hx with
    | node hx => exact hxs _ hx
    | want => trivial
    | cross _ _ hy =>
      obtain ⟨m, -, hy⟩ := mem_flatMap.1 hy
      exact unweighted_moveChanges _ m _ hy
  | note _ _ ih => exact ih.note _ _

variable (hW : ∀ {x n}, n ∈ s.watches.nodes x → W x n)
include hW

theorem Explores.watcher {x : Crossing} {n : Node} (hn : n ∈ s'.watches.nodes x) : W x n := by
  induction h with
  | refl => exact hW hn
  | @make s' _ x _ ih => exact ih ((frame_make s' x).2.2.1 ▸ hn)
  | note _ hnew => exact hnew hn

theorem Explores.catchUp (x : Crossing) : Explores c g xs W s (s'.catchUp c g x) := by
  rw [catchUp_eq]
  split
  · exact h
  · refine .makeAll (h.note ?_) fun y hy => ?_
    · exact fun hn => h.watcher hW hn
    · obtain ⟨e, he, hy⟩ := mem_flatMap.1 hy
      obtain ⟨n, hn, hy⟩ := mem_flatMap.1 hy
      exact .cross (h.watcher hW hn) (List.mem_of_mem_drop he) (h.direction ▸ hy)

theorem Explores.watch {n : Node} {x : Crossing} (hx : W x n) :
    Explores c g xs W s (s'.watch c g n x) := by
  obtain ⟨s₁, s₂, hs₁, rfl, heq⟩ := watch_eq c g s' n x
  have hwant : Explores c g xs W s s₁ := by
    rw [hs₁]
    refine h.makeAll fun y hy => ?_
    unfold wantChanges at hy
    split at hy
    · cases hy
    · exact mem_singleton.1 hy ▸ .want hx
  rw [heq]
  refine Explores.catchUp (.makeAll (hwant.note fun {y m} hm => ?_) fun y hy => ?_) hW x
  · rcases (mem_nodes_watch ..).1 hm with hm | ⟨rfl, rfl⟩
    · exact hwant.watcher hW hm
    · exact hx
  · obtain ⟨e, he, hy⟩ := mem_flatMap.1 hy
    exact .cross hx (List.mem_of_mem_take he) (hwant.direction ▸ hy)

end Explores

variable (c g s)

/-- Catching up with the call graph: a solver that has seen all edges does nothing, and
    any other has seen them afterwards. -/
theorem explores_refresh :
    s.edgesSeen = g.size ∧ s.refresh c g = s ∨ s.edgesSeen ≠ g.size ∧
      Explores c g [] (fun x n => n ∈ s.watches.nodes x) { s with edgesSeen := g.size }
        (s.refresh c g) := by
  unfold Solver.refresh
  split
  · next hseen => exact .inl ⟨hseen, rfl⟩
  · next hseen =>
    exact .inr ⟨hseen, Explores.foldl .refl fun x _ _ hs => hs.catchUp (fun hn => hn) x⟩

/-- Processing a node: it is reported, or left alone, or it is followed and watches its
    crossings. -/
theorem explores_process (n : Node) :
    IsReported c n = true ∧ s.process c g n = s.make (.message (.unreachable n)) ∨
    IsReported c n = false ∧ ∃ visited, visited = s.visited.insert n.stmt.method ∧
      (s.process c g n = { s with visited } ∨ c.scope.excludes n.stmt.method = false ∧
        Explores c g (s.nodeChanges c.program n)
          (fun x m => m ∈ s.watches.nodes x ∨ m = n ∧ x ∈ (s.flowAt c.program n).crossings)
          { s with visited } (s.process c g n)) := by
  rcases process_cases c g s n with
    hreported | ⟨hreported, visited, hvisited, ⟨-, heq⟩ | ⟨hincluded, s₁, s₂, rfl, rfl, heq⟩⟩
  · exact .inl hreported
  · exact .inr ⟨hreported, visited, hvisited, .inl heq⟩
  · refine .inr ⟨hreported, visited, hvisited, .inr ⟨hincluded, heq ▸ ?_⟩⟩
    refine .makeAll (.foldl (.makeAll .refl fun x hx => ?_) fun x hx _ hs => ?_) fun x hx => ?_
    · exact .node (mem_append_left _ hx)
    · exact hs.watch (fun hn => .inl hn) (.inr ⟨rfl, hx⟩)
    · exact .node (mem_append_right _ hx)

theorem makes_refresh :
    s.edgesSeen = g.size ∧ s.refresh c g = s ∨ s.edgesSeen ≠ g.size ∧
      Makes Change.Unweighted { s with edgesSeen := g.size } (s.refresh c g) :=
  (explores_refresh c g s).imp_right <| And.imp_right fun h =>
    h.makes fun _ hx => nomatch hx

theorem makes_process (n : Node) : Makes Change.Unweighted s (s.process c g n) := by
  rcases explores_process c g s n with ⟨-, heq⟩ | ⟨-, visited, -, heq | ⟨-, h⟩⟩
  · exact heq ▸ Makes.refl.make trivial
  · exact heq ▸ Makes.refl.note s.watches visited
  · refine (Makes.refl.note s.watches visited).trans (h.makes ?_)
    exact forall_nodeChanges (fun m _ => unweighted_moveChanges n m) (fun _ _ => trivial)
      fun _ _ => trivial

end Solver

end DemandAlias
