import DemandAlias.Proofs.Solver.Growth

/-!
# What a solver keeps to

At any time, a solver has done what the rules, the nodes and the crossings it knows of
ask for, or has it in one of its queues (`Kept`): every rule has made its changes for
every transition of its topic, every node reached is processed, and every node that
watches a crossing has followed the edges counted as followed. This is kept by changes
from outside, by steps, and when the call graph grows; so a solver that is idle has
done everything (`Kept.callRule`, `Kept.fieldRule`, `Kept.node`).

Messages that are not in the outbox any more are those `sent`.
-/

namespace DemandAlias

open Std.HashSet (not_mem_empty)

/-- The crossings a node leads to. -/
def Flow.crossings (f : Flow) : List Crossing :=
  f.callSites.map .into ++ f.callersOf.toList.map .outOf

/-- The graph `g'` is `g`, possibly with more edges, each of which has both its ends. -/
structure CallGraph.Grows (g g' : CallGraph) : Prop where
  edges : ∀ x : Crossing, x.edges g <+: x.edges g'
  callers : ∀ {site m}, m ∈ g'.callees site → m ∈ g.callees site ∨ site ∈ g'.callers m
  size : g.size ≤ g'.size
  same : g'.size = g.size → g' = g

namespace CallGraph.Grows

theorem refl (g : CallGraph) : g.Grows g :=
  ⟨fun _ => List.prefix_refl _, .inl, Nat.le_refl _, fun _ => rfl⟩

theorem mem_edges_into {g : CallGraph} {site : Statement} {m : MethodName} :
    ⟨site, m⟩ ∈ (Crossing.into site).edges g ↔ m ∈ g.callees site := by
  simp [Crossing.edges]

theorem mem_edges_outOf {g : CallGraph} {site : Statement} {m : MethodName} :
    ⟨site, m⟩ ∈ (Crossing.outOf m).edges g ↔ site ∈ g.callers m := by
  simp [Crossing.edges]

theorem trans {g g' g'' : CallGraph} (h : g.Grows g') (h' : g'.Grows g'') : g.Grows g'' where
  edges x := (h.edges x).trans (h'.edges x)
  callers hm := by
    rcases h'.callers hm with hm | hsite
    · exact (h.callers hm).imp_right fun hsite =>
        mem_edges_outOf.1 ((h'.edges _).subset (mem_edges_outOf.2 hsite))
    · exact .inr hsite
  size := Nat.le_trans h.size h'.size
  same heq := by
    have hsize : g''.size = g'.size := Nat.le_antisymm (heq ▸ h.size) h'.size
    rw [h'.same hsize, h.same (hsize.symm.trans heq)]

theorem addEdge (g : CallGraph) (site : Statement) (m : MethodName) :
    g.Grows (g.addEdge site m) := by
  unfold CallGraph.addEdge
  split
  · exact .refl g
  · refine ⟨fun x => ?_, fun {site' m'} hm' => ?_, Nat.le_succ _,
      fun h => absurd h (Nat.succ_ne_self _)⟩
    · cases x with
      | into | outOf =>
        simp only [Crossing.edges, callees, CallGraph.callers, get_file]
        split
        · rw [map_append]
          exact List.prefix_append _ _
        · exact List.prefix_refl _
    · rcases (mem_get_file ..).1 hm' with hm' | ⟨rfl, rfl⟩
      · exact .inl hm'
      · exact .inr ((mem_get_file ..).2 (.inr ⟨rfl, rfl⟩))

end CallGraph.Grows

namespace Watches

theorem not_mem_nodes_empty (x : Crossing) (n : Node) : n ∉ empty.nodes x := by
  simp [nodes, empty]

theorem followedCount_empty (x : Crossing) : empty.followedCount x = 0 := by
  simp [followedCount, empty]

end Watches

namespace Solver

variable {ω : Type}

/-! ### Things done -/

/-- The rule has dealt with the transition of the automaton of calls. -/
def CallDone [Weight ω] (c : Setting ω) (sent : Message → Prop) (s : Solver ω) (rule : CallRule ω)
    (t : CallTransition) : Prop :=
  ∃ w : ω, w ≠ zero ∧ ∀ x ∈ rule.changes c s.bottom t w, Made sent s x

/-- The rule has dealt with the transition of the automaton of fields. -/
def FieldDone (sent : Message → Prop) (s : Solver ω) (rule : FieldRule) (t : FieldTransition) :
    Prop :=
  ∀ x ∈ rule.changes t, Made sent s x

/-- What processing a node changes at once. -/
def nodeChanges (p : Program) (s : Solver ω) (n : Node) : List (Change ω) :=
  (s.flowAt p n).moves.flatMap (Move.changes n) ++
    (s.flowAt p n).effect.toList.flatMap (Effect.changes n)

/-- A node makes moves; besides, it may be a store if its solver goes forward, and create a value
    if it goes backward. -/
theorem forall_nodeChanges {p : Program} {s : Solver ω} {n : Node} {P : Change ω → Prop}
    (hmoves : ∀ m ∈ (p.flow s.direction s.seed n).moves, ∀ x ∈ m.changes n, P x)
    (hwrites : ∀ {base field}, s.direction = .forward → n.stmt.action = .store base field n.var →
      P (.message (.fieldWrite n base field)))
    (hcreates : s.direction = .backward → n.stmt.allocates n.var = true →
      P (.fieldRule (.out (.located n)) (.request (.allocation n)))) :
    ∀ x ∈ s.nodeChanges p n, P x := by
  rw [nodeChanges, flowAt_eq]
  refine List.forall_mem_append.2
    ⟨List.forall_mem_flatMap.2 hmoves, List.forall_mem_flatMap.2 fun e he => ?_⟩
  rw [mem_toList] at he
  cases hdirection : s.direction with
  | forward =>
    rw [hdirection] at he
    obtain ⟨base, field, rfl, haction⟩ := Flow.Forward.eq_writes_of_effect he
    exact forall_mem_singleton.2 (hwrites hdirection haction)
  | backward =>
    rw [hdirection] at he
    obtain ⟨rfl, hallocates⟩ := Flow.Backward.eq_creates_of_effect he
    exact forall_mem_singleton.2 (hcreates hdirection hallocates)

/-- The node is in a method that is said to be unreachable, and is to be reported. -/
def IsReported (c : Setting ω) (n : Node) : Bool :=
  c.options.checkUnreachable && c.program.isUnreachable n.stmt.method

/-- The node is processed: it is reported as unreachable, or excluded, or its moves are
    followed and its crossings are watched. -/
def NodeDone (c : Setting ω) (sent : Message → Prop) (s : Solver ω) (n : Node) : Prop :=
  Made sent s (.message (.unreachable n)) ∨ IsReported c n = false ∧
    (c.scope.excludes n.stmt.method = true ∨
      (∀ x ∈ s.nodeChanges c.program n, Made sent s x) ∧
        ∀ x ∈ (s.flowAt c.program n).crossings, n ∈ s.watches.nodes x)

/-! ### The call graph -/

/-- The nodes that watch a crossing have followed the edges counted as followed, and these
    edges are asked for. -/
structure Watching (c : Setting ω) (g : CallGraph) (sent : Message → Prop) (s : Solver ω) :
    Prop where
  watched : ∀ {x n}, n ∈ s.watches.nodes x → x ∈ s.watches.crossings
  wanted : ∀ {x}, x ∈ s.watches.crossings → Made sent s (.message (.wanted x))
  count_le : ∀ x : Crossing, s.watches.followedCount x ≤ (x.edges g).length
  crossed : ∀ {x n}, n ∈ s.watches.nodes x →
    ∀ e ∈ (x.edges g).take (s.watches.followedCount x),
      ∀ y ∈ x.changes c s.direction n e, Made sent s y

/-- All edges of the crossings watched are counted as followed. -/
def CaughtUp (g : CallGraph) (s : Solver ω) : Prop :=
  ∀ x ∈ s.watches.crossings, (x.edges g).length ≤ s.watches.followedCount x

/-! ### The invariant -/

/-- What a solver keeps to, while the call graph is `g` and the messages `sent` have
    left its outbox. -/
structure Kept [Weight ω] (c : Setting ω) (g : CallGraph) (sent : Message → Prop)
    (s : Solver ω) : Prop where
  sound : s.Sound
  settled : s.Settled (CallDone c sent s) (FieldDone sent s) (NodeDone c sent s)
  watching : Watching c g sent s
  seen_le : s.edgesSeen ≤ g.size
  fresh : s.edgesSeen = g.size → CaughtUp g s

section Mono

variable {c : Setting ω} {g : CallGraph} {sent sent' : Message → Prop} {s s' : Solver ω}

theorem flowAt_of_grows (h : Grows s s') (p : Program) (n : Node) :
    s'.flowAt p n = s.flowAt p n := by
  rw [flowAt, flowAt, h.direction, h.seed]

section

variable (h : Grows s s') (hm : ∀ m, m ∈ s.outbox ∨ sent m → m ∈ s'.outbox ∨ sent' m)
include h hm

theorem CallDone.mono [Weight ω] {rule : CallRule ω} {t : CallTransition}
    (hd : CallDone c sent s rule t) : CallDone c sent' s' rule t := by
  obtain ⟨w, hw, hmade⟩ := hd
  refine ⟨w, hw, fun x hx => ?_⟩
  rw [h.bottom] at hx
  exact (hmade x hx).mono h hm

theorem FieldDone.mono {rule : FieldRule} {t : FieldTransition} (hd : FieldDone sent s rule t) :
    FieldDone sent' s' rule t :=
  fun x hx => (hd x hx).mono h hm

theorem NodeDone.mono {n : Node} (hd : NodeDone c sent s n)
    (hw : ∀ x, n ∈ s.watches.nodes x → n ∈ s'.watches.nodes x) : NodeDone c sent' s' n := by
  refine hd.imp (fun hu => hu.mono h hm) (.imp_right (.imp_right fun ⟨hmade, hwatch⟩ => ?_))
  rw [nodeChanges, ← flowAt_of_grows h] at hmade
  rw [← flowAt_of_grows h] at hwatch
  exact ⟨fun x hx => (hmade x hx).mono h hm, fun x hx => hw x (hwatch x hx)⟩

theorem Watching.mono (hs : Watching c g sent s) (hw : s'.watches = s.watches) :
    Watching c g sent' s' where
  watched := by
    rw [hw]
    exact hs.watched
  wanted := by
    rw [hw]
    exact fun hx => (hs.wanted hx).mono h hm
  count_le := by
    rw [hw]
    exact hs.count_le
  crossed := by
    rw [hw, h.direction]
    exact fun hn e he y hy => (hs.crossed hn e he y hy).mono h hm

end

variable [Weight ω]

theorem Settled.done_mono
    (hs : s'.Settled (CallDone c sent s) (FieldDone sent s) (NodeDone c sent s))
    (h : Grows s s') (hm : ∀ m, m ∈ s.outbox ∨ sent m → m ∈ s'.outbox ∨ sent' m)
    (hw : ∀ x n, n ∈ s.watches.nodes x → n ∈ s'.watches.nodes x) :
    s'.Settled (CallDone c sent' s') (FieldDone sent' s') (NodeDone c sent' s') :=
  hs.mono (fun _ _ hd => hd.mono h hm) (fun _ _ hd => hd.mono h hm)
    fun n hd => hd.mono h hm fun x => hw x n

/-- Messages may leave the outbox once they are among those sent. -/
theorem Kept.deliver (h : s.Kept c g sent) {outbox : List Message}
    (hm : ∀ m, m ∈ s.outbox ∨ sent m → m ∈ outbox ∨ sent' m) :
    Kept c g sent' { s with outbox } := by
  have hgrows : Grows s { s with outbox } := { Grows.refl s with }
  have hsettled : Settled (CallDone c sent s) (FieldDone sent s) (NodeDone c sent s)
    { s with outbox } := { h.settled with }
  exact {
    sound := h.sound.note
    settled := hsettled.done_mono hgrows hm fun _ _ hn => hn
    watching := h.watching.mono hgrows hm rfl
    seen_le := h.seen_le
    fresh := h.fresh }

theorem Kept.mono_sent (h : s.Kept c g sent) (hm : ∀ m, sent m → sent' m) : s.Kept c g sent' :=
  h.deliver fun m => .imp_right (hm m)

/-- What is kept to with a call graph is kept to when it grows. -/
theorem Kept.grow {g' : CallGraph} (h : s.Kept c g sent) (hg : g.Grows g') :
    s.Kept c g' sent where
  sound := h.sound
  settled := h.settled
  watching :=
    { h.watching with
      count_le := fun x => Nat.le_trans (h.watching.count_le x) (hg.edges x).length_le
      crossed := fun {x n} hn e he => by
        obtain ⟨rest, hrest⟩ := hg.edges x
        rw [← hrest, List.take_append_of_le_length (h.watching.count_le x)] at he
        exact h.watching.crossed hn e he }
  seen_le := Nat.le_trans h.seen_le hg.size
  fresh hseen := by
    have hsize : g'.size = g.size := Nat.le_antisymm (hseen ▸ h.seen_le) hg.size
    rw [hg.same hsize]
    exact h.fresh (hseen.trans hsize)

end Mono

/-! ### At the start -/

section Start

variable [Weight ω] [DecidableEq ω] (id : SolverId) (direction : Direction) (seed : Node)

theorem calls_start : (start id direction seed : Solver ω).calls =
    .seeded (.bottom seed) .reach (callAt seed (.bottom seed)) one := rfl

theorem fields_start : (start id direction seed : Solver ω).fields =
    .seeded (.bottom seed) .reach (fieldAt seed .epsilon (.bottom seed)) .one := rfl

theorem sound_start [ZeroFree ω] : (start id direction seed : Solver ω).Sound where
  calls := calls_start (ω := ω) id direction seed ▸ Automaton.consistent_seeded ..
  fields := fields_start (ω := ω) id direction seed ▸ Automaton.consistent_seeded ..
  callReach := (Automaton.listens_seeded ..).2 ⟨rfl, rfl⟩
  fieldReach := (Automaton.listens_seeded ..).2 ⟨rfl, rfl⟩
  popMatch := fun hk => nomatch ((Automaton.listens_seeded ..).1 hk).2
  callReached := fun hn => absurd hn not_mem_empty
  fieldReached := fun hn => absurd hn not_mem_empty
  reached := fun _ => iff_of_false not_mem_nil fun hn => not_mem_empty hn.1
  pending := fun hn => nomatch hn
  targets := fun ht => ((mem_transitions_seeded ..).1 ht).1 ▸ rfl
  callRequests := fun hx => absurd hx not_mem_empty
  fieldRequests := fun hx => absurd hx not_mem_empty
  unwinding := fun hx => absurd hx not_mem_empty

/-- A solver at its start keeps to everything. -/
theorem kept_start [ZeroFree ω] (c : Setting ω) (g : CallGraph) (sent : Message → Prop) :
    (start id direction seed).Kept c g sent where
  sound := sound_start id direction seed
  settled :=
    { calls := by
        rw [calls_start]
        exact Automaton.told_seeded _ _ _ _ _
      fields := by
        rw [fields_start]
        exact Automaton.told_seeded _ _ _ _ _
      nodes := fun hn => nomatch hn }
  watching :=
    { watched := fun {x n} hn => absurd hn (Watches.not_mem_nodes_empty x n)
      wanted := fun hx => nomatch hx
      count_le := fun x => Nat.le_trans (Nat.le_of_eq (Watches.followedCount_empty x))
        (Nat.zero_le _)
      crossed := fun {x n} hn => absurd hn (Watches.not_mem_nodes_empty x n) }
  seen_le := Nat.zero_le _
  fresh _ _ hx := nomatch hx

end Start

end Solver

end DemandAlias
