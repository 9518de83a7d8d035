import DemandAlias.Proofs.Conditions
import DemandAlias.Proofs.Trail

/-!
# What is merged into a trail

A trail is put together by combining and extending (`Trail.Expression`), and so are the ways
that it stands for: a combination stands for the ways of both its parts, an extension for each
way of the one followed by each way of the other (`Expression.ways`). Much is forgotten of
these ways, but not all (`Trail.Means`): the trail has the nodes of the first one of them, an
outcome that it knows is one of all ways, and an outcome that all ways have, with none of them
going the other way, is known.

The last of these is not kept by extending for each factor on its own: all ways in a row go to
the target of a branch if all those of one factor do, whichever it is, and the other factor
then knows of no other outcome (`Means.extend`).
-/

namespace DemandAlias.Trail

/-! ### Ways -/

/-- A way: the nodes it comes to, and the branches it comes by, with whether it goes to their
    target. -/
structure Way where
  nodes : List Node
  events : List (Node × Bool)

namespace Way

instance : Append Way where
  append a b := ⟨a.nodes ++ b.nodes, a.events ++ b.events⟩

@[simp] theorem nodes_append (a b : Way) : (a ++ b).nodes = a.nodes ++ b.nodes := rfl

@[simp] theorem events_append (a b : Way) : (a ++ b).events = a.events ++ b.events := rfl

/-- At this branch, the way only ever goes one way. -/
def Keeps (a : Way) (k : Node) (b : Bool) : Prop := (k, b) ∈ a.events ∧ (k, !b) ∉ a.events

end Way

/-- How a trail is put together. -/
inductive Expression where
  | one
  | zero
  | step (n : Node)
  | branch (n k : Node) (b : Bool)
  | combine (e f : Expression)
  | extend (e f : Expression)

namespace Expression

/-- The trail put together. -/
def value : Expression → Trail
  | one => Weight.one
  | zero => Weight.zero
  | step n => .step n
  | branch n k b => .branch n k (.only b)
  | combine e f => Weight.combine e.value f.value
  | extend e f => Weight.extend e.value f.value

/-- The ways that it stands for. -/
def ways : Expression → List Way
  | one => [⟨[], []⟩]
  | zero => []
  | step n => [⟨[n], []⟩]
  | branch n k b => [⟨[n], [(k, b)]⟩]
  | combine e f => e.ways ++ f.ways
  | extend e f => e.ways.flatMap fun a => f.ways.map (a ++ ·)

end Expression

/-! ### Trails of ways -/

/-- What the trail tells of the ways merged into it. -/
structure Means (w : Trail) (ways : List Way) : Prop where
  /-- There is no way exactly if none was merged. -/
  zero_iff : w = .zero ↔ ways = []
  /-- The nodes are those of one of the ways. -/
  found : w ≠ .zero → ∃ a ∈ ways, a.nodes = w.nodes
  /-- The other ways are longer, or come later in the order of nodes. -/
  noLater : ∀ a ∈ ways, NoLater w.nodes a.nodes
  /-- All ways go as the outcomes known say; at a branch that goes both ways, all of them do. -/
  shown : ∀ {k b}, w.Shows k b → ∀ a ∈ ways, (k, b) ∈ a.events
  /-- If all ways go this way and none of them goes the other, that is known. -/
  known : ways ≠ [] → ∀ {k b}, (∀ a ∈ ways, a.Keeps k b) → (k, .only b) ∈ w.conditions

namespace Means

theorem zero : Means .zero [] where
  zero_iff := iff_of_true rfl rfl
  found h := absurd rfl h
  noLater _ h := nomatch h
  shown := fun ⟨_, ho, _⟩ => nomatch ho
  known h := absurd rfl h

/-- A trail without outcomes tells of a way without branches. -/
theorem plain (ns : List Node) : Means (.path ns .none) [⟨ns, []⟩] where
  zero_iff := iff_of_false Trail.noConfusion (cons_ne_nil _ _)
  found _ := ⟨_, mem_singleton_self _, rfl⟩
  noLater := forall_mem_singleton.2 (.inl rfl)
  shown := fun ⟨_, ho, _⟩ => nomatch ho
  known _ _ _ h := absurd (h _ (mem_singleton_self _)).1 not_mem_nil

theorem branch (n k : Node) (b : Bool) : Means (.branch n k (.only b)) [⟨[n], [(k, b)]⟩] where
  zero_iff := iff_of_false Trail.noConfusion (cons_ne_nil _ _)
  found _ := ⟨_, mem_singleton_self _, rfl⟩
  noLater := forall_mem_singleton.2 (.inl rfl)
  shown h := by
    obtain ⟨o, ho, hshows⟩ := h
    cases mem_singleton.1 ho
    obtain rfl := (Outcome.shows_only_iff _ _).1 hshows
    exact forall_mem_singleton.2 (mem_singleton_self _)
  known _ _ _ h := by
    cases mem_singleton.1 (h _ (mem_singleton_self _)).1
    exact mem_singleton_self _

variable {v w : Trail} {as bs : List Way}

/-- What is known of either of two trails is known of both. -/
theorem combine (hv : Means v as) (hw : Means w bs) : Means (Weight.combine v w) (as ++ bs) := by
  cases v with
  | zero =>
    rw [hv.zero_iff.1 rfl]
    cases w <;> exact hw
  | path ns c =>
    cases w with
    | zero =>
      rw [hw.zero_iff.1 rfl, List.append_nil]
      exact hv
    | path ms d =>
      have has : as ≠ [] := fun h => Trail.noConfusion (hv.zero_iff.2 h)
      have hbs : bs ≠ [] := fun h => Trail.noConfusion (hw.zero_iff.2 h)
      refine ⟨iff_of_false Trail.noConfusion fun h => has (List.append_eq_nil_iff.1 h).1,
        fun _ => ?_, fun a ha => ?_, fun hshows a ha => ?_, fun _ {k b} hkeeps => ?_⟩
      · rcases shorter_cases ns ms with heq | ⟨-, heq⟩
        · obtain ⟨a, ha, hnodes⟩ := hv.found nofun
          exact ⟨a, mem_append_left _ ha, hnodes.trans heq.symm⟩
        · obtain ⟨a, ha, hnodes⟩ := hw.found nofun
          exact ⟨a, mem_append_right _ ha, hnodes.trans heq.symm⟩
      · rcases mem_append.1 ha with ha | ha
        · exact (shorter_noLater_left ns ms).trans (hv.noLater a ha)
        · exact (shorter_noLater_right ns ms).trans (hw.noLater a ha)
      · rcases mem_append.1 ha with ha | ha
        · exact hv.shown (shows_left_of_combine Trail.noConfusion hshows) a ha
        · exact hw.shown (shows_right_of_combine Trail.noConfusion hshows) a ha
      · have hc := hv.known has fun a ha => hkeeps a (mem_append_left _ ha)
        have hd := hw.known hbs fun a ha => hkeeps a (mem_append_right _ ha)
        exact mem_conditions_path_iff.2 ((c.get?_agreed_eq_some_iff d k _).2
          ⟨mem_conditions_path_iff.1 hc, mem_conditions_path_iff.1 hd⟩)

theorem mem_ways_extend {x : Way} :
    (x ∈ as.flatMap fun a => bs.map (a ++ ·)) ↔ ∃ a ∈ as, ∃ b ∈ bs, a ++ b = x := by
  simp only [mem_flatMap, mem_map]

/-- If none of the ways goes the other way, a trail knows of this way or of nothing. -/
theorem eq_none_or_eq_only {ns : List Node} {c : Conditions} (h : Means (.path ns c) as) {k : Node}
    {b : Bool} (hnone : ∀ a ∈ as, (k, !b) ∉ a.events) :
    c.get? k = none ∨ c.get? k = some (.only b) := by
  cases hget : c.get? k with
  | none => exact .inl rfl
  | some o =>
    obtain ⟨a, ha, -⟩ := h.found nofun
    have hother : ¬o.Shows !b := fun hshows =>
      hnone a ha (h.shown ⟨o, mem_conditions_path_iff.2 hget, hshows⟩ a ha)
    exact .inr (congrArg some (Outcome.eq_only_of_not_shows hother))

/-- If all ways in a row go this way, then all those of one factor do. -/
theorem forall_or_forall {k : Node} {b : Bool}
    (h : ∀ x ∈ as, ∀ y ∈ bs, (k, b) ∈ (x ++ y : Way).events) :
    (∀ x ∈ as, (k, b) ∈ x.events) ∨ ∀ y ∈ bs, (k, b) ∈ y.events := by
  by_cases hall : ∀ x ∈ as, (k, b) ∈ x.events
  · exact .inl hall
  · obtain ⟨x, hx, hxk⟩ : ∃ x ∈ as, (k, b) ∉ x.events := by simpa using hall
    exact .inr fun y hy => (mem_append.1 (h x hx y hy)).resolve_left hxk

/-- What is known of two trails in a row is known of one of them, and the other one knows of
    nothing else. -/
theorem extend (hv : Means v as) (hw : Means w bs) :
    Means (Weight.extend v w) (as.flatMap fun a => bs.map (a ++ ·)) := by
  cases v with
  | zero =>
    rw [hv.zero_iff.1 rfl]
    exact .zero
  | path _ c =>
    cases w with
    | zero =>
      have hnone : (as.flatMap fun a => ([] : List Way).map (a ++ ·)) = [] :=
        List.flatMap_eq_nil_iff.2 fun _ _ => rfl
      rw [hw.zero_iff.1 rfl, hnone]
      exact .zero
    | path _ d =>
      obtain ⟨x, hx, hxnodes⟩ := hv.found nofun
      obtain ⟨y, hy, hynodes⟩ := hw.found nofun
      have hxy := mem_ways_extend.2 ⟨x, hx, y, hy, rfl⟩
      refine ⟨iff_of_false Trail.noConfusion (List.ne_nil_of_mem hxy), fun _ => ⟨_, hxy, ?_⟩,
        fun z hz => ?_, fun hshows z hz => ?_, fun _ {k b} hkeeps => ?_⟩
      · rw [Way.nodes_append, hxnodes, hynodes]
        rfl
      · obtain ⟨x, hx, y, hy, rfl⟩ := mem_ways_extend.1 hz
        exact (hv.noLater x hx).append (hw.noLater y hy)
      · obtain ⟨x, hx, y, hy, rfl⟩ := mem_ways_extend.1 hz
        rw [Way.events_append, mem_append]
        exact (shows_of_extend hshows).imp (hv.shown · x hx) (hw.shown · y hy)
      · have hrow : ∀ x ∈ as, ∀ y ∈ bs, (x ++ y).Keeps k b := fun x hx y hy =>
          hkeeps _ (mem_ways_extend.2 ⟨x, hx, y, hy, rfl⟩)
        have hnotx : ∀ x ∈ as, (k, !b) ∉ x.events := fun x hx hmem =>
          (hrow x hx y hy).2 (mem_append_left _ hmem)
        have hnoty : ∀ y ∈ bs, (k, !b) ∉ y.events := fun y hy hmem =>
          (hrow x hx y hy).2 (mem_append_right _ hmem)
        -- One of the factors has all its ways go this way, so it knows, and the other one, of which
        -- no way goes the other way, has nothing to say against it.
        refine mem_conditions_path_iff.2 ((c.get?_along d k).trans ?_)
        rcases forall_or_forall fun x hx y hy => (hrow x hx y hy).1 with hall | hall
        · have hc := hv.known (List.ne_nil_of_mem hx) fun x hx => ⟨hall x hx, hnotx x hx⟩
          rw [mem_conditions_path_iff.1 hc]
          rcases hw.eq_none_or_eq_only hnoty with hd | hd <;> rw [hd]
          · rfl
          · exact congrArg some (Outcome.along_self _)
        · have hd := hw.known (List.ne_nil_of_mem hy) fun y hy => ⟨hall y hy, hnoty y hy⟩
          rw [mem_conditions_path_iff.1 hd]
          rcases hv.eq_none_or_eq_only hnotx with hc | hc <;> rw [hc]
          · rfl
          · exact congrArg some (Outcome.along_self _)

end Means

/-! ### Expressions -/

theorem Expression.means (e : Expression) : e.value.Means e.ways := by
  induction e with
  | one => exact .plain []
  | zero => exact .zero
  | step n => exact .plain [n]
  | branch n k b => exact .branch n k b
  | combine e f ihe ihf => exact ihe.combine ihf
  | extend e f ihe ihf => exact ihe.extend ihf

/-- However a trail is put together, it tells of the ways that it stands for. If it contradicts
    the creation of the object, then there is a branch on the local that holds the object at
    which all of them go the way that cannot be. -/
theorem Expression.means_and_contradicts (e : Expression) :
    e.value.Means e.ways ∧ ∀ q, Weighing.trail.contradicts q e.value = true →
      ∃ k b, (∀ a ∈ e.ways, (k, b) ∈ a.events) ∧ ∃ condition place,
        k.stmt.action = .branch condition place ∧ condition.lhs = k.var ∧
          Weighing.evaluate? q condition = some !b := by
  refine ⟨e.means, fun q hq => ?_⟩
  obtain ⟨k, condition, place, value, haction, hlhs, hevaluate, hmem⟩ :=
    Weighing.exists_of_contradicts hq
  refine ⟨k, !value, e.means.shown ⟨_, hmem, ?_⟩, condition, place, haction, hlhs, ?_⟩
  · cases value <;> rfl
  · rw [hevaluate, Bool.not_not]

namespace Testing

def var : Local := ⟨⟨"Main.main"⟩, "x"⟩

/-- An object is created, and tested for being null. -/
def query : ForwardQuery := ⟨⟨⟨⟨"Main.main"⟩, 0, .assign var (.alloc ⟨"X"⟩)⟩, var⟩, rfl⟩

def test : Node := ⟨⟨⟨"Main.main"⟩, 1, .branch ⟨var, .eq, .const .null⟩ 3⟩, var⟩

/-- The local of the object at a place after the test. -/
def after (index : Nat) : Node := ⟨⟨⟨"Main.main"⟩, index, .nop⟩, var⟩

/-- Two ways on which the object is null, the second one longer and with the test made once more. -/
def merged : Expression :=
  .combine (.branch (after 3) test true) (.extend (.branch (after 3) test true)
    (.extend (.branch (after 3) test true) (.step (after 4))))

end Testing

/-- Both ways are such that the object is null, which it is not. -/
theorem Expression.means_merged : Testing.merged.ways.length = 2 ∧
    Testing.merged.value.nodes = [Testing.after 3] ∧
    (Testing.test, .taken) ∈ Testing.merged.value.conditions ∧
    Weighing.trail.contradicts Testing.query Testing.merged.value = true ∧
    ∃ k b, (∀ a ∈ Testing.merged.ways, (k, b) ∈ a.events) ∧ ∃ condition place,
      k.stmt.action = .branch condition place ∧ condition.lhs = k.var ∧
        Weighing.evaluate? Testing.query condition = some !b := by
  refine ⟨rfl, by decide, by decide, by decide, ?_⟩
  exact Testing.merged.means_and_contradicts.2 Testing.query (by decide)

end DemandAlias.Trail
