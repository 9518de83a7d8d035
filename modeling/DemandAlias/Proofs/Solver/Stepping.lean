import DemandAlias.Proofs.Solver.Invariant

/-!
# Steps keep to what a solver keeps to

A step takes something from a queue and does it at once: delivering an event makes the
changes of the rule, and processing a node follows its moves and watches its crossings.
Catching up with the call graph (`refresh`) takes nothing from a queue.

* `Kept.refresh`, `caughtUp_refresh`: after catching up, all edges are followed;
* `Kept.serveQueue`: serving a queue keeps to what a solver keeps to.
-/

namespace DemandAlias.Solver

/-! ### Watches -/

theorem followedCount_setFollowed (w : Watches) (x y : Crossing) (count : Nat) :
    (w.setFollowed x count).followedCount y = if x = y then count else w.followedCount y := by
  simp [Watches.followedCount, Watches.setFollowed, Std.HashMap.getD_insert]

theorem nodes_watch (w : Watches) (x y : Crossing) (n : Node) :
    (w.watch x n).nodes y = w.nodes y ++ if x = y then [n] else [] := by
  rw [Watches.nodes, Watches.watch, get_file]
  split <;> simp [Watches.nodes]

theorem mem_nodes_watch (w : Watches) (x y : Crossing) (n m : Node) :
    m ∈ (w.watch x n).nodes y ↔ m ∈ w.nodes y ∨ x = y ∧ m = n := by
  rw [nodes_watch]
  split <;> simp [*]

theorem mem_inOrder (w : Watches) (x : Crossing) : x ∈ w.inOrder ↔ x ∈ w.crossings := by
  show _ ↔ x ∈ w.crossings.toList
  cases hx : x.isInto <;> simp [Watches.inOrder, hx]

variable {ω : Type} [Weight ω]
variable {sent : Message → Prop}

/-! ### Following -/

/-- The solver `s'` has done more than `s`. -/
structure Progresses (s s' : Solver ω) : Prop where
  sound : s'.Sound
  grows : Grows s s'
  outbox : ∀ {m}, m ∈ s.outbox → m ∈ s'.outbox
  settled : ∀ {callDone fieldDone nodeDone}, s.Settled callDone fieldDone nodeDone →
    s'.Settled callDone fieldDone nodeDone
  edgesSeen : s'.edgesSeen = s.edgesSeen

namespace Progresses

variable {s s' s'' : Solver ω}

theorem trans (h : Progresses s s') (h' : Progresses s' s'') : Progresses s s'' where
  sound := h'.sound
  grows := h.grows.trans h'.grows
  outbox hm := h'.outbox (h.outbox hm)
  settled hs := h'.settled (h.settled hs)
  edgesSeen := h'.edgesSeen.trans h.edgesSeen

theorem made_mono {x : Change ω} (h : Progresses s s') (hx : Made sent s x) : Made sent s' x :=
  hx.mono h.grows fun _ hm => hm.imp_left h.outbox

end Progresses

/-- Besides, it still keeps to what `s` kept to. -/
structure Follows (c : Setting ω) (g : CallGraph) (s s' : Solver ω) : Prop
    extends Progresses s s' where
  nodes : ∀ {x n}, n ∈ s.watches.nodes x → n ∈ s'.watches.nodes x
  watching : ∀ {sent}, Watching c g sent s → Watching c g sent s'
  caughtUp : CaughtUp g s → CaughtUp g s'

namespace Follows

variable {c : Setting ω} {g : CallGraph} {s s' s'' : Solver ω}

theorem refl (h : s.Sound) : Follows c g s s :=
  ⟨⟨h, .refl s, fun hm => hm, fun hs => hs, rfl⟩, fun hn => hn, fun hw => hw, fun hc => hc⟩

theorem trans (h : Follows c g s s') (h' : Follows c g s' s'') : Follows c g s s'' where
  toProgresses := h.toProgresses.trans h'.toProgresses
  nodes hn := h'.nodes (h.nodes hn)
  watching hw := h'.watching (h.watching hw)
  caughtUp hc := h'.caughtUp (h.caughtUp hc)

end Follows

section Changes

variable [DecidableEq ω] [ZeroFree ω] {c : Setting ω} {g : CallGraph} {s : Solver ω}

theorem follows_makeAll (h : s.Sound) (xs : List (Change ω)) (hxs : ∀ x ∈ xs, s.Proper x) :
    Follows c g s (s.makeAll xs) ∧ ∀ sent, ∀ x ∈ xs, Made sent (s.makeAll xs) x := by
  obtain ⟨hsound, hext, hmade, hsettled⟩ := performsAll_makeAll h hxs
  refine ⟨⟨⟨hsound, hext.toGrows, hext.outbox, hsettled, hext.edgesSeen⟩, ?_, fun hw =>
    hw.mono hext.toGrows (fun _ hm => hm.imp_left hext.outbox) hext.watches, ?_⟩, hmade⟩
  · rw [hext.watches]
    exact fun hn => hn
  · rw [CaughtUp, CaughtUp, hext.watches]
    exact fun hc => hc

/-- A solver that looks at the call graph in another way and then makes some changes. -/
structure Rewatches (watches : Watches) (xs : List (Change ω)) (s s' : Solver ω) : Prop
    extends Progresses s s' where
  made : ∀ sent, ∀ x ∈ xs, Made sent s' x
  watches_eq : s'.watches = watches

theorem rewatches_makeAll (h : s.Sound) (watches : Watches) (xs : List (Change ω))
    (hxs : ∀ x ∈ xs, s.Proper x) :
    Rewatches watches xs s ({ s with watches }.makeAll xs) := by
  have hgrows : Grows s { s with watches } := { Grows.refl s with }
  have hsound : Sound { s with watches } := h.note
  obtain ⟨hsound', hext, hmade, hsettled⟩ :=
    performsAll_makeAll hsound fun x hx => (hxs x hx).grows hgrows
  exact ⟨⟨hsound', hgrows.trans hext.toGrows, fun hm => hext.outbox hm,
    fun hs => hsettled { hs with }, hext.edgesSeen⟩, hmade, hext.watches⟩

end Changes

/-! ### Catching up -/

/-- Besides, no other crossing is watched, and no fewer edges are followed. -/
structure CatchesUp (c : Setting ω) (g : CallGraph) (s s' : Solver ω) : Prop
    extends Follows c g s s' where
  crossings : s'.watches.crossings = s.watches.crossings
  count_le : ∀ x, s.watches.followedCount x ≤ s'.watches.followedCount x

theorem CatchesUp.trans {c : Setting ω} {g : CallGraph} {s s' s'' : Solver ω}
    (h : CatchesUp c g s s') (h' : CatchesUp c g s' s'') : CatchesUp c g s s'' :=
  ⟨h.toFollows.trans h'.toFollows, h'.crossings.trans h.crossings,
    fun x => Nat.le_trans (h.count_le x) (h'.count_le x)⟩

theorem plain_crossingChanges (c : Setting ω) (direction : Direction) (n : Node) (x : Crossing)
    (e : CallEdge) : ∀ y ∈ x.changes c direction n e, Plain y := by
  intro y hy
  obtain ⟨m, -, hy⟩ := mem_flatMap.1 hy
  exact plain_moveChanges n m y hy

/-- What lets all watchers of a crossing follow the edges not followed so far. -/
def catchUpChanges (c : Setting ω) (g : CallGraph) (s : Solver ω) (x : Crossing) :
    List (Change ω) :=
  ((x.edges g).drop (s.watches.followedCount x)).flatMap fun e =>
    (s.watches.nodes x).flatMap fun n => x.changes c s.direction n e

theorem plain_catchUpChanges (c : Setting ω) (g : CallGraph) (s : Solver ω) (x : Crossing) :
    ∀ y ∈ catchUpChanges c g s x, Plain y := by
  intro y hy
  obtain ⟨e, -, hy⟩ := mem_flatMap.1 hy
  obtain ⟨n, -, hy⟩ := mem_flatMap.1 hy
  exact plain_crossingChanges c _ n x e y hy

variable {c : Setting ω} {g : CallGraph} {s s' : Solver ω}

/-- Once the rest of its edges is followed, all edges of a crossing are. -/
theorem watching_of_rewatches {x : Crossing}
    (hr : Rewatches (s.watches.setFollowed x (x.edges g).length) (catchUpChanges c g s x) s s')
    (hw : Watching c g sent s) : Watching c g sent s' := by
  have hnodes : ∀ y, s'.watches.nodes y = s.watches.nodes y := by
    rw [hr.watches_eq]
    exact fun _ => rfl
  have hcount : ∀ y, s'.watches.followedCount y =
      if x = y then (x.edges g).length else s.watches.followedCount y := by
    rw [hr.watches_eq]
    exact fun y => followedCount_setFollowed s.watches x y _
  refine ⟨fun {y n} hn => ?_, fun {y} hy => ?_, fun y => ?_, fun {y n} hn e he z hz => ?_⟩
  · rw [hr.watches_eq]
    exact hw.watched (hnodes y ▸ hn)
  · rw [hr.watches_eq] at hy
    exact hr.made_mono (hw.wanted hy)
  · rw [hcount]
    split
    · next heq => exact heq ▸ Nat.le_refl _
    · exact hw.count_le y
  · rw [hnodes] at hn
    rw [hr.grows.direction] at hz
    rw [hcount] at he
    split at he
    · next heq =>
      subst heq
      -- An edge of `x` was followed before, or is followed now.
      rw [List.take_length, ← List.take_append_drop (s.watches.followedCount x) (x.edges g),
        mem_append] at he
      rcases he with he | he
      · exact hr.made_mono (hw.crossed hn e he z hz)
      · exact hr.made sent z (mem_flatMap.2 ⟨e, he, mem_flatMap.2 ⟨n, hn, hz⟩⟩)
    · exact hr.made_mono (hw.crossed hn e he z hz)

/-! ### Watching -/

/-- What lets a new watcher of a crossing follow the edges that the others have followed. -/
def joinChanges (c : Setting ω) (g : CallGraph) (s : Solver ω) (n : Node) (x : Crossing) :
    List (Change ω) :=
  ((x.edges g).take (s.watches.followedCount x)).flatMap fun e => x.changes c s.direction n e

/-- A new watcher that has followed the edges that the others have is like them. -/
theorem watching_of_join {n : Node} {x : Crossing}
    (hr : Rewatches (s.watches.watch x n) (joinChanges c g s n x) s s') (hw : Watching c g sent s)
    (hx : Made sent s (.message (.wanted x))) : Watching c g sent s' := by
  refine ⟨fun {y m} hm => ?_, fun {y} hy => ?_, fun y => ?_, fun {y m} hm e he z hz => ?_⟩
  · rw [hr.watches_eq, mem_nodes_watch] at hm
    rw [hr.watches_eq]
    refine (OrderedSet.mem_insert ..).2 ?_
    rcases hm with hm | ⟨rfl, -⟩
    · exact .inr (hw.watched hm)
    · exact .inl rfl
  · rw [hr.watches_eq] at hy
    rcases (OrderedSet.mem_insert ..).1 hy with rfl | hy
    · exact hr.made_mono hx
    · exact hr.made_mono (hw.wanted hy)
  · rw [hr.watches_eq]
    exact hw.count_le y
  · rw [hr.grows.direction] at hz
    rw [hr.watches_eq] at he hm
    rcases (mem_nodes_watch ..).1 hm with hm | ⟨rfl, rfl⟩
    · exact hr.made_mono (hw.crossed hm e he z hz)
    · exact hr.made sent z (mem_flatMap.2 ⟨e, he, hz⟩)

/-- The message that asks for the edges of a crossing come to for the first time. -/
def wantChanges (s : Solver ω) (x : Crossing) : List (Change ω) :=
  if s.watches.isWatched x then [] else [.message (.wanted x)]

theorem proper_wantChanges (s : Solver ω) (x : Crossing) : ∀ y ∈ s.wantChanges x, s.Proper y := by
  intro y hy
  unfold wantChanges at hy
  split at hy
  · cases hy
  · rw [mem_singleton.1 hy]
    trivial

/-! ### Taking from a queue -/

/-- Which methods are visited and which queue was served last does not matter. -/
theorem follows_note (h : s.Sound) (visited : OrderedSet MethodName) (last : WorkQueue) :
    Follows c g s { s with visited, last } where
  sound := h.note
  grows := { Grows.refl s with }
  outbox hm := hm
  settled hs := { hs with }
  nodes hn := hn
  watching hw := { hw with }
  edgesSeen := rfl
  caughtUp hc := hc

/-- Whoever has done more still keeps to everything. -/
theorem Kept.follows (h : s.Kept c g sent) (hf : Follows c g s s') : s'.Kept c g sent where
  sound := hf.sound
  settled := (hf.settled h.settled).done_mono hf.grows (fun _ hm => hm.imp_left hf.outbox)
    fun _ _ hn => hf.nodes hn
  watching := hf.watching h.watching
  seen_le := hf.edgesSeen ▸ h.seen_le
  fresh hseen := hf.caughtUp (h.fresh (hf.edgesSeen ▸ hseen))

/-- The solver `s₀` is `s` with something taken from a queue. -/
structure Takes (s s₀ : Solver ω) : Prop where
  sound : s₀.Sound
  grows : Grows s s₀
  outbox : s₀.outbox = s.outbox
  watches : s₀.watches = s.watches
  edgesSeen : s₀.edgesSeen = s.edgesSeen

theorem takes_calls (h : s.Sound) {d} {calls : Automaton State Statement ω (CallRule ω)}
    (hpoll : s.calls.poll? = some (d, calls)) : Takes s { s with calls } := by
  have hconsistent := Automaton.consistent_of_poll? h.calls hpoll
  obtain ⟨events, rfl, -, -⟩ := poll?_eq_some hpoll
  exact ⟨{ h with calls := hconsistent }, { Grows.refl s with }, rfl, rfl, rfl⟩

theorem takes_fields (h : s.Sound) {d} {fields : Automaton State Field Reach FieldRule}
    (hpoll : s.fields.poll? = some (d, fields)) : Takes s { s with fields } := by
  have hconsistent := Automaton.consistent_of_poll? h.fields hpoll
  obtain ⟨events, rfl, -, -⟩ := poll?_eq_some hpoll
  exact ⟨{ h with fields := hconsistent }, { Grows.refl s with }, rfl, rfl, rfl⟩

theorem takes_pending (h : s.Sound) {n : Node} {pending : Queue Node}
    (hpop : s.pending.pop? = some (n, pending)) : Takes s { s with pending } := by
  have hpending : ∀ {m}, m ∈ pending.toList → m ∈ s.reached := fun hm => h.pending <| by
    rw [Queue.toList_of_pop?_eq_some hpop]
    exact mem_cons_of_mem _ hm
  exact ⟨{ h with pending := hpending }, { Grows.refl s with }, rfl, rfl, rfl⟩

/-- If what was taken from a queue is done afterwards, everything is kept to. -/
theorem Kept.of_takes {s₀ : Solver ω} (h : s.Kept c g sent) (ht : Takes s s₀)
    (hf : Follows c g s₀ s') (callDone : CallRule ω → CallTransition → Prop)
    (fieldDone : FieldRule → FieldTransition → Prop) (nodeDone : Node → Prop)
    (hs : s₀.Settled (fun k t => CallDone c sent s k t ∨ callDone k t)
      (fun k t => FieldDone sent s k t ∨ fieldDone k t) (fun n => NodeDone c sent s n ∨ nodeDone n))
    (hcall : ∀ k t, callDone k t → CallDone c sent s' k t)
    (hfield : ∀ k t, fieldDone k t → FieldDone sent s' k t)
    (hnode : ∀ n, nodeDone n → NodeDone c sent s' n) : s'.Kept c g sent ∧ Grows s s' := by
  have hgrows : Grows s s' := ht.grows.trans hf.grows
  have hm : ∀ m, m ∈ s.outbox ∨ sent m → m ∈ s'.outbox ∨ sent m :=
    fun _ hm => hm.imp_left fun hm => hf.outbox (ht.outbox ▸ hm)
  refine ⟨⟨hf.sound, (hf.settled hs).mono (fun k t hd => ?_) (fun k t hd => ?_) (fun n hd => ?_),
    hf.watching (h.watching.mono ht.grows (fun _ => .imp_left fun hm => ht.outbox ▸ hm) ht.watches),
    ?_, fun hseen => hf.caughtUp ?_⟩, hgrows⟩
  · exact hd.elim (fun hd => hd.mono hgrows hm) (hcall k t)
  · exact hd.elim (fun hd => hd.mono hgrows hm) (hfield k t)
  · exact hd.elim (fun hd => hd.mono hgrows hm fun x hn => hf.nodes (ht.watches ▸ hn)) (hnode n)
  · rw [hf.edgesSeen, ht.edgesSeen]
    exact h.seen_le
  · rw [hf.edgesSeen, ht.edgesSeen] at hseen
    rw [CaughtUp, ht.watches]
    exact h.fresh hseen

/-! ### Steps as changes -/

variable [DecidableEq ω]

section

variable (c : Setting ω) (g : CallGraph) (s : Solver ω)

theorem catchUp_eq (x : Crossing) :
    s.catchUp c g x = if (x.edges g).length ≤ s.watches.followedCount x then s
      else { s with watches := s.watches.setFollowed x (x.edges g).length }.makeAll
        (catchUpChanges c g s x) := by
  unfold catchUp
  dsimp only
  split
  · rfl
  · exact foldl_cross ..

theorem outbox_catchUp (x : Crossing) : (s.catchUp c g x).outbox = s.outbox := by
  rw [catchUp_eq]
  split
  · rfl
  · exact outbox_makeAll _ (plain_catchUpChanges c g s x)

theorem outbox_refresh : (s.refresh c g).outbox = s.outbox := by
  unfold refresh
  split
  · rfl
  · exact List.foldlRecOn (motive := fun s' : Solver ω => s'.outbox = s.outbox) _ _ rfl
      fun _ h x _ => (outbox_catchUp ..).trans h

/-- Watching a crossing: asking for its edges, joining its watchers and catching up. -/
theorem watch_eq (n : Node) (x : Crossing) :
    ∃ s₁ s₂, s₁ = s.makeAll (s.wantChanges x) ∧
      s₂ = { s₁ with watches := s₁.watches.watch x n }.makeAll (joinChanges c g s₁ n x) ∧
      s.watch c g n x = s₂.catchUp c g x := by
  refine ⟨_, _, rfl, rfl, ?_⟩
  have hwant : (if s.watches.isWatched x then s else s.tell (.wanted x)) =
      s.makeAll (s.wantChanges x) := by
    unfold wantChanges
    split <;> rfl
  rw [watch, hwant]
  exact congrArg (catchUp c g · x) (foldl_cross_edges ..)

end

/-- The edges of a crossing are asked for before it is watched. -/
theorem made_wanted {s₁ : Solver ω} (hs₁ : s₁ = s.makeAll (s.wantChanges x))
    (hw : Watching c g sent s₁) : Made sent s₁ (.message (.wanted x)) := by
  unfold wantChanges at hs₁
  split at hs₁
  · next hwatched =>
    rw [hs₁] at hw ⊢
    exact hw.wanted ((OrderedSet.contains_iff ..).1 hwatched)
  · rw [hs₁]
    exact .inl mem_cons_self

theorem foldl_tellEffect (s : Solver ω) (n : Node) (es : List Effect) :
    es.foldl (fun s e => s.tellEffect n e) s = s.makeAll (es.flatMap (Effect.changes n)) := by
  induction es generalizing s with
  | nil => rfl
  | cons e _ ih =>
    rw [foldl_cons, ih, List.flatMap_cons, makeAll_append]
    cases e <;> rfl

/-- Processing a node: it is reported, or left alone, or its moves are followed, its
    crossings watched and the others told. -/
theorem process_cases (c : Setting ω) (g : CallGraph) (s : Solver ω) (n : Node) :
    (IsReported c n = true ∧ s.process c g n = s.makeAll [.message (.unreachable n)]) ∨
    IsReported c n = false ∧ ∃ visited, visited = s.visited.insert n.stmt.method ∧
      (c.scope.excludes n.stmt.method = true ∧ s.process c g n = { s with visited } ∨
      c.scope.excludes n.stmt.method = false ∧ ∃ s₁ s₂, s₁ = { s with visited }.makeAll
          ((s.flowAt c.program n).moves.flatMap (Move.changes n)) ∧
        s₂ = (s.flowAt c.program n).crossings.foldl (fun s x => s.watch c g n x) s₁ ∧
        s.process c g n =
          s₂.makeAll ((s.flowAt c.program n).effect.toList.flatMap (Effect.changes n))) := by
  unfold process
  dsimp only
  split
  · next hreported => exact .inl ⟨hreported, rfl⟩
  · next hreported =>
    refine .inr ⟨eq_false_iff.2 hreported, s.visited.insert n.stmt.method, rfl, ?_⟩
    split
    · next hexcl => exact .inl ⟨hexcl, rfl⟩
    · next hexcl =>
      refine .inr ⟨eq_false_iff.2 hexcl, _, _, rfl, rfl, ?_⟩
      rw [foldl_tellEffect, followAll_eq, Flow.crossings, foldl_append, List.foldl_map,
        List.foldl_map]
      rfl

/-- Serves a queue, and notes which one. -/
def serveQueue (c : Setting ω) (g : CallGraph) (s : Solver ω) (queue : WorkQueue) : Solver ω :=
  { s with last := queue }.serve c g queue

/-- Serving a queue: nothing is in it, or what comes first is taken from it and done. -/
theorem serveQueue_cases (c : Setting ω) (g : CallGraph) (s : Solver ω) (queue : WorkQueue) :
    s.serveQueue c g queue = { s with last := queue } ∨
    (∃ d calls, s.calls.poll? = some (d, calls) ∧ s.serveQueue c g queue =
      { s with calls, last := queue }.makeAll
        (d.listener.changes c s.bottom d.transition d.weight)) ∨
    (∃ d fields, s.fields.poll? = some (d, fields) ∧ s.serveQueue c g queue =
      { s with fields, last := queue }.makeAll (d.listener.changes d.transition)) ∨
    ∃ n pending, s.pending.pop? = some (n, pending) ∧
      s.serveQueue c g queue = { s with pending, last := queue }.process c g n := by
  cases queue with
  | calls =>
    simp only [serveQueue, serve]
    split
    · next d calls hpoll => exact .inr (.inl ⟨d, calls, hpoll, applyCallRule_eq ..⟩)
    · exact .inl rfl
  | fields =>
    simp only [serveQueue, serve]
    split
    · next d fields hpoll => exact .inr (.inr (.inl ⟨d, fields, hpoll, applyFieldRule_eq ..⟩))
    · exact .inl rfl
  | nodes =>
    simp only [serveQueue, serve]
    split
    · next n pending hpop => exact .inr (.inr (.inr ⟨n, pending, hpop, rfl⟩))
    · exact .inl rfl

/-! ### Following the call graph -/

variable [ZeroFree ω]

/-- Catching up with a crossing lets its watchers follow all its edges. -/
theorem catchesUp_catchUp (h : s.Sound) (x : Crossing) :
    CatchesUp c g s (s.catchUp c g x) ∧
      (x.edges g).length ≤ (s.catchUp c g x).watches.followedCount x := by
  rw [catchUp_eq]
  split
  · next hle => exact ⟨⟨.refl h, rfl, fun _ => Nat.le_refl _⟩, hle⟩
  next hlt =>
  have hr := rewatches_makeAll h (s.watches.setFollowed x (x.edges g).length)
    (catchUpChanges c g s x) fun y hy => (plain_catchUpChanges c g s x y hy).proper s
  have hcount_le : ∀ y, s.watches.followedCount y ≤
      (s.watches.setFollowed x (x.edges g).length).followedCount y := by
    intro y
    rw [followedCount_setFollowed]
    split
    · next heq => exact heq ▸ Nat.le_of_lt (Nat.lt_of_not_le hlt)
    · exact Nat.le_refl _
  rw [hr.watches_eq, followedCount_setFollowed, if_pos rfl]
  refine ⟨⟨⟨hr.toProgresses, ?_, watching_of_rewatches hr, ?_⟩, ?_, ?_⟩, Nat.le_refl _⟩
  · rw [hr.watches_eq]
    exact fun hn => hn
  · intro hc
    rw [CaughtUp, hr.watches_eq]
    exact fun y hy => Nat.le_trans (hc y hy) (hcount_le y)
  · rw [hr.watches_eq]
    rfl
  · rw [hr.watches_eq]
    exact hcount_le

theorem catchesUp_foldl_catchUp (h : s.Sound) (xs : List Crossing) :
    CatchesUp c g s (xs.foldl (fun s x => s.catchUp c g x) s) ∧
      ∀ x ∈ xs, (x.edges g).length ≤
        (xs.foldl (fun s x => s.catchUp c g x) s).watches.followedCount x := by
  induction xs generalizing s with
  | nil => exact ⟨⟨.refl h, rfl, fun _ => Nat.le_refl _⟩, fun x hx => nomatch hx⟩
  | cons x _ ih =>
    obtain ⟨hx, hcount⟩ := catchesUp_catchUp (c := c) (g := g) h x
    obtain ⟨hxs, hcounts⟩ := ih hx.sound
    refine ⟨hx.trans hxs, fun y hy => ?_⟩
    rcases mem_cons.1 hy with rfl | hy
    · exact Nat.le_trans hcount (hxs.count_le y)
    · exact hcounts y hy

/-- A node that watches a crossing is one of its watchers from then on. -/
theorem follows_watch (h : s.Sound) (n : Node) (x : Crossing) :
    Follows c g s (s.watch c g n x) ∧ n ∈ (s.watch c g n x).watches.nodes x := by
  obtain ⟨s₁, s₂, hs₁, hs₂, heq⟩ := watch_eq c g s n x
  have hwant : Follows c g s s₁ := by
    rw [hs₁]
    exact (follows_makeAll h _ (proper_wantChanges s x)).1
  have hjoin : Rewatches (s₁.watches.watch x n) (joinChanges c g s₁ n x) s₁ s₂ := by
    rw [hs₂]
    refine rewatches_makeAll hwant.sound _ _ fun y hy => ?_
    obtain ⟨e, -, hy⟩ := mem_flatMap.1 hy
    exact (plain_crossingChanges c _ n x e y hy).proper s₁
  -- Having joined the others, the node catches up together with them.
  obtain ⟨hcatch, hcount⟩ := catchesUp_catchUp (c := c) (g := g) hjoin.sound x
  rw [← heq] at hcatch hcount
  have hnodes : ∀ {y m}, m ∈ s₁.watches.nodes y ∨ x = y ∧ m = n →
      m ∈ (s.watch c g n x).watches.nodes y := fun {y m} hm => by
    refine hcatch.nodes ?_
    rw [hjoin.watches_eq]
    exact (mem_nodes_watch ..).2 hm
  refine ⟨hwant.trans ?_, hnodes (.inr ⟨rfl, rfl⟩)⟩
  exact {
    toProgresses := hjoin.toProgresses.trans hcatch.toProgresses
    nodes := fun hm => hnodes (.inl hm)
    watching := fun hw => hcatch.watching (watching_of_join hjoin hw (made_wanted hs₁ hw))
    caughtUp := fun hc y hy => by
      rw [hcatch.crossings, hjoin.watches_eq] at hy
      rcases (OrderedSet.mem_insert ..).1 hy with rfl | hy
      · exact hcount
      · refine Nat.le_trans (hc y hy) (Nat.le_trans ?_ (hcatch.count_le y))
        rw [hjoin.watches_eq]
        exact Nat.le_refl _ }

/-- A solver that catches up with the call graph has seen all its edges. -/
theorem Kept.refresh (h : s.Kept c g sent) :
    (s.refresh c g).Kept c g sent ∧ (s.refresh c g).edgesSeen = g.size ∧
      Grows s (s.refresh c g) := by
  unfold Solver.refresh
  split
  · next heq => exact ⟨h, heq, .refl s⟩
  · have hgrows : Grows s { s with edgesSeen := g.size } := { Grows.refl s with }
    have hsound : Sound { s with edgesSeen := g.size } := h.sound.note
    obtain ⟨hcatch, hcount⟩ := catchesUp_foldl_catchUp (c := c) (g := g) hsound s.watches.inOrder
    refine ⟨⟨hcatch.sound, ?_, ?_, Nat.le_of_eq hcatch.edgesSeen, fun _ x hx => ?_⟩,
      hcatch.edgesSeen, hgrows.trans hcatch.grows⟩
    · have hsettled : Settled (CallDone c sent s) (FieldDone sent s) (NodeDone c sent s) _ :=
        hcatch.settled ⟨h.settled.calls, h.settled.fields, h.settled.nodes⟩
      exact hsettled.done_mono (hgrows.trans hcatch.grows)
        (fun m hm => hm.imp_left fun hm => hcatch.outbox hm) fun x n hn => hcatch.nodes hn
    · exact hcatch.watching (h.watching.mono hgrows (fun m hm => hm) rfl)
    · rw [hcatch.crossings] at hx
      exact hcount x ((mem_inOrder ..).2 hx)

/-! ### Processing a node -/

theorem follows_foldl_watch (h : s.Sound) (n : Node) (xs : List Crossing) :
    Follows c g s (xs.foldl (fun s x => s.watch c g n x) s) ∧
      ∀ x ∈ xs, n ∈ (xs.foldl (fun s x => s.watch c g n x) s).watches.nodes x := by
  induction xs generalizing s with
  | nil => exact ⟨.refl h, fun x hx => nomatch hx⟩
  | cons x _ ih =>
    obtain ⟨hx, hn⟩ := follows_watch (c := c) (g := g) h n x
    obtain ⟨hxs, hns⟩ := ih hx.sound
    refine ⟨hx.trans hxs, fun y hy => ?_⟩
    rcases mem_cons.1 hy with rfl | hy
    · exact hxs.nodes hn
    · exact hns y hy

/-- A node that is processed is done. -/
theorem follows_process (h : s.Sound) (n : Node) :
    Follows c g s (s.process c g n) ∧ ∀ sent, NodeDone c sent (s.process c g n) n := by
  rcases process_cases c g s n with
    ⟨-, heq⟩ | ⟨hreported, visited, -, ⟨hexcl, heq⟩ | ⟨-, s₁, s₂, hs₁, hs₂, heq⟩⟩
  · rw [heq]
    have hunreachable : ∀ x ∈ [Change.message (.unreachable n)], s.Proper x := fun x hx => by
      rw [mem_singleton.1 hx]
      trivial
    obtain ⟨hf, hmade⟩ := follows_makeAll (c := c) (g := g) h _ hunreachable
    exact ⟨hf, fun sent => .inl (hmade sent _ mem_cons_self)⟩
  · rw [heq]
    exact ⟨follows_note h visited s.last, fun sent => .inr ⟨hreported, .inl hexcl⟩⟩
  · have hvisit : Follows c g s { s with visited } := follows_note h visited s.last
    obtain ⟨hmoves, hmade₁⟩ := follows_makeAll (c := c) (g := g) hvisit.sound
      ((s.flowAt c.program n).moves.flatMap (Move.changes n)) fun x hx => by
        obtain ⟨m, -, hx⟩ := mem_flatMap.1 hx
        exact proper_moveChanges _ n m x hx
    rw [← hs₁] at hmoves hmade₁
    obtain ⟨hwatch, hnodes⟩ := follows_foldl_watch (c := c) (g := g) hmoves.sound n
      (s.flowAt c.program n).crossings
    rw [← hs₂] at hwatch hnodes
    obtain ⟨heffect, hmade₂⟩ := follows_makeAll (c := c) (g := g) hwatch.sound
      ((s.flowAt c.program n).effect.toList.flatMap (Effect.changes n)) fun x hx => by
        obtain ⟨e, -, hx⟩ := mem_flatMap.1 hx
        exact proper_effectChanges _ n e x hx
    rw [← heq] at heffect hmade₂
    have hall := ((hvisit.trans hmoves).trans hwatch).trans heffect
    refine ⟨hall, fun sent => .inr ⟨hreported, .inr ⟨fun x hx => ?_, fun x hx => ?_⟩⟩⟩
    · rw [nodeChanges, flowAt_of_grows hall.grows] at hx
      rcases mem_append.1 hx with hx | hx
      · exact heffect.made_mono (hwatch.made_mono (hmade₁ sent x hx))
      · exact hmade₂ sent x hx
    · rw [flowAt_of_grows hall.grows] at hx
      exact heffect.nodes (hnodes x hx)

/-! ### Steps -/

theorem Kept.serveCalls (hc : c.weighing.ZeroFree) (h : s.Kept c g sent) :
    (s.serve c g .calls).Kept c g sent ∧ Grows s (s.serve c g .calls) := by
  simp only [serve]
  split
  · next d calls hpoll =>
    obtain ⟨hmem, hw, topic, -, hk⟩ := delivered_of_poll? h.sound.calls hpoll
    have htold := Automaton.told_of_poll? h.settled.calls hpoll
    have ht := takes_calls h.sound hpoll
    rw [applyCallRule_eq]
    obtain ⟨hf, hmade⟩ := follows_makeAll (c := c) (g := g) ht.sound _ fun x hx =>
      (proper_callRuleChanges hc h.sound hk hmem hw s.bottom x hx).grows ht.grows
    refine h.of_takes ht hf (fun k t => k = d.listener ∧ t = d.transition) (fun _ _ => False)
      (fun _ => False) ⟨htold, h.settled.fields.mono fun _ _ => .inl,
        fun hn => (h.settled.nodes hn).imp_right .inl⟩ ?_ (fun _ _ => False.elim) fun _ => False.elim
    rintro k t ⟨rfl, rfl⟩
    have hbottom := congrArg (d.listener.changes c · d.transition d.weight) hf.grows.bottom
    exact ⟨d.weight, hw, fun x hx => hmade sent x (hbottom ▸ hx)⟩
  · exact ⟨h, .refl s⟩

theorem Kept.serveFields (h : s.Kept c g sent) :
    (s.serve c g .fields).Kept c g sent ∧ Grows s (s.serve c g .fields) := by
  simp only [serve]
  split
  · next d fields hpoll =>
    obtain ⟨hmem, -⟩ := delivered_of_poll? h.sound.fields hpoll
    have htold := Automaton.told_of_poll? h.settled.fields hpoll
    have ht := takes_fields h.sound hpoll
    rw [applyFieldRule_eq]
    obtain ⟨hf, hmade⟩ := follows_makeAll (c := c) (g := g) ht.sound _ fun x hx =>
      (proper_fieldRuleChanges hmem x hx).grows ht.grows
    refine h.of_takes ht hf (fun _ _ => False) (fun k t => k = d.listener ∧ t = d.transition)
      (fun _ => False) ⟨h.settled.calls.mono fun _ _ => .inl, htold,
        fun hn => (h.settled.nodes hn).imp_right .inl⟩ (fun _ _ => False.elim) ?_ fun _ => False.elim
    rintro k t ⟨rfl, rfl⟩
    exact hmade sent
  · exact ⟨h, .refl s⟩

theorem Kept.serveNodes (h : s.Kept c g sent) :
    (s.serve c g .nodes).Kept c g sent ∧ Grows s (s.serve c g .nodes) := by
  simp only [serve]
  split
  · next n pending hpop =>
    have ht := takes_pending h.sound hpop
    obtain ⟨hf, hdone⟩ := follows_process (c := c) (g := g) ht.sound n
    refine h.of_takes ht hf (fun _ _ => False) (fun _ _ => False) (· = n)
      ⟨h.settled.calls.mono fun _ _ => .inl, h.settled.fields.mono fun _ _ => .inl, ?_⟩
      (fun _ _ => False.elim) (fun _ _ => False.elim) fun m hm => hm ▸ hdone sent
    intro m hm
    rcases h.settled.nodes hm with hm | hm
    · rw [Queue.toList_of_pop?_eq_some hpop, mem_cons] at hm
      exact hm.elim (fun hm => .inr (.inr hm)) .inl
    · exact .inr (.inl hm)
  · exact ⟨h, .refl s⟩

/-- Serving a queue keeps to what a solver keeps to. -/
theorem Kept.serveQueue (hc : c.weighing.ZeroFree) (h : s.Kept c g sent) (queue : WorkQueue) :
    (s.serveQueue c g queue).Kept c g sent ∧ Grows s (s.serveQueue c g queue) := by
  have hnote : Follows c g s { s with last := queue } := follows_note h.sound s.visited queue
  have hlast := h.follows hnote
  cases queue with
  | calls => exact (hlast.serveCalls hc).imp_right hnote.grows.trans
  | fields => exact hlast.serveFields.imp_right hnote.grows.trans
  | nodes => exact hlast.serveNodes.imp_right hnote.grows.trans

end DemandAlias.Solver
