import DemandAlias.Proofs.Automaton.Latest
import DemandAlias.Proofs.Data.Listing
import DemandAlias.Weight.Distance
import Mathlib.Data.List.Induction
import Mathlib.Data.Multiset.Fold

/-!
# Automata and their histories

An automaton comes up by operations, one after the other (`replay`), and what it stores can
be told from them: the transitions that were added with a weight other than zero, in the order
in which they came first, each with the combination of these weights. The transitions out of
a state, those by a label and those into a state are the same ones once more, in the same order.

* `weight?_replay`: a transition weighs what its weights combine to, in their order;
* `transitionsOf_replay`: the transitions of a topic, in the order of their arrival;
* `toList_states_replay`: the states, in the order in which they were mentioned;
* `stores_replay`: if weights can be combined in any order and any number of times, the store
  is a map from transitions to combined weights, and the order of the additions does not matter.
-/

namespace DemandAlias

open Std

/-! ### Weights combined in any order -/

namespace Weight

variable {ω : Type} [Weight ω]

/-- The weights combined, one after the other, if there are any. -/
def combineAll? : List ω → Option ω
  | [] => none
  | w :: ws => some (ws.foldl combine w)

theorem combineAll?_concat (ws : List ω) (w : ω) :
    combineAll? (ws ++ [w]) = some ((combineAll? ws).elim w fun old => combine old w) := by
  cases ws with
  | nil => rfl
  | cons => simp [combineAll?]

theorem combineAll?_eq_none_iff (ws : List ω) : combineAll? ws = none ↔ ws = [] := by
  cases ws <;> simp [combineAll?]

section Lawful

variable [LawfulCombine ω]

instance : Std.Associative (combine : ω → ω → ω) := ⟨LawfulCombine.combine_assoc⟩

instance : Std.Commutative (combine : ω → ω → ω) := ⟨LawfulCombine.combine_comm⟩

instance : Std.IdempotentOp (combine : ω → ω → ω) := ⟨LawfulCombine.combine_self⟩

theorem combine_zero (a : ω) : combine a zero = a := by
  rw [LawfulCombine.combine_comm, ZeroCombine.zero_combine]

/-- A combination is only zero if all its parts are. -/
theorem eq_zero_of_combine {a b : ω} (h : combine a b = zero) : a = zero :=
  calc a = combine a zero := (combine_zero a).symm
    _ = combine a (combine a b) := by rw [h]
    _ = combine a b := by rw [← LawfulCombine.combine_assoc, LawfulCombine.combine_self]
    _ = zero := h

theorem combineAll?_eq_foldr {ws : List ω} (h : ws ≠ []) :
    combineAll? ws = some (ws.foldr combine zero) := by
  cases ws with
  | nil => exact absurd rfl h
  | cons w ws =>
    have hfold : ∀ v : ω, ws.foldl combine v = combine v (ws.foldr combine zero) := by
      induction ws with
      | nil => exact fun v => (combine_zero v).symm
      | cons u ws ih =>
        intro v
        rw [foldl_cons, ih (cons_ne_nil w ws), LawfulCombine.combine_assoc, List.foldr_cons]
    rw [combineAll?, hfold, List.foldr_cons]

theorem foldr_combine_ne_zero {ws : List ω} (hne : ws ≠ []) (h : ∀ w ∈ ws, w ≠ zero) :
    ws.foldr combine zero ≠ zero := by
  cases ws with
  | nil => exact absurd rfl hne
  | cons w => exact fun hzero => h w mem_cons_self (eq_zero_of_combine hzero)

/-- What weights combine to depends only on which there are. -/
theorem foldr_combine_congr [DecidableEq ω] {ws ws' : List ω} (h : ∀ w, w ∈ ws ↔ w ∈ ws') :
    ws.foldr combine zero = ws'.foldr combine zero := by
  have hdedup : (ws : Multiset ω).dedup = (ws' : Multiset ω).dedup := Multiset.dedup_ext.2 h
  rw [← Multiset.coe_fold_r, ← Multiset.fold_dedup_idem, hdedup, Multiset.fold_dedup_idem,
    Multiset.coe_fold_r]

end Lawful

end Weight

/-! ### Lists without repetitions -/

theorem nodup_eraseDups {α : Type} [DecidableEq α] (as : List α) : as.eraseDups.Nodup := by
  induction as using List.reverseRecOn with
  | nil => exact nodup_nil
  | append_singleton _ _ ih =>
    rw [eraseDups_concat, addNew]
    split
    · exact ih
    · next h => exact List.nodup_append.2 ⟨ih, by simp, by grind⟩

/-! ### Topics -/

namespace Topic

variable {σ Λ : Type}

/-- The topic is about the transition. -/
def IsAbout : Topic σ Λ → Transition σ Λ → Prop
  | .out state, t => t.source = state
  | .outBy state label, t => t.source = state ∧ t.label = label
  | .into state, t => t.target = state
  | .all, _ => True

instance [DecidableEq σ] [DecidableEq Λ] (topic : Topic σ Λ) (t : Transition σ Λ) :
    Decidable (topic.IsAbout t) :=
  match topic with
  | .out state => inferInstanceAs (Decidable (t.source = state))
  | .outBy state label => inferInstanceAs (Decidable (t.source = state ∧ t.label = label))
  | .into state => inferInstanceAs (Decidable (t.target = state))
  | .all => inferInstanceAs (Decidable True)

theorem mem_topics_iff (topic : Topic σ Λ) (t : Transition σ Λ) :
    topic ∈ t.topics ↔ topic.IsAbout t := by
  cases topic <;> simp [Transition.topics, IsAbout, eq_comm]

end Topic

namespace Automaton

variable {σ Λ ω κ : Type}

/-! ### Operations -/

/-- What can be done with an automaton. -/
inductive Operation (σ Λ ω κ : Type) where
  | add (t : Transition σ Λ) (w : ω)
  | addInitial (s : σ)
  | addFinal (s : σ)
  | listen (topic : Topic σ Λ) (k : κ)
  | poll

section Additions

variable [Weight ω] [DecidableEq ω]
variable {t : Transition σ Λ} {w : ω} {op : Operation σ Λ ω κ} {ops : List (Operation σ Λ ω κ)}

/-- What the operation adds: a transition with a weight other than zero. -/
def Operation.addition? : Operation σ Λ ω κ → Option (Transition σ Λ × ω)
  | .add t w => if w = zero then none else some (t, w)
  | _ => none

theorem Operation.eq_add_of_addition? (h : op.addition? = some (t, w)) :
    op = .add t w ∧ w ≠ zero := by
  cases op with
  | add =>
    rw [addition?] at h
    split at h
    · cases h
    · next hv =>
      cases h
      exact ⟨rfl, hv⟩
  | addInitial | addFinal | listen | poll => cases h

/-- The states that the operation mentions. -/
def Operation.states : Operation σ Λ ω κ → List σ
  | .add t w => if w = zero then [] else [t.source, t.target]
  | .addInitial s | .addFinal s => [s]
  | .listen topic _ => topic.state?.toList
  | .poll => []

/-- The transitions added, each with the weight it was added with. -/
def additions (ops : List (Operation σ Λ ω κ)) : List (Transition σ Λ × ω) :=
  ops.filterMap Operation.addition?

theorem mem_additions_iff : (t, w) ∈ additions ops ↔ .add t w ∈ ops ∧ w ≠ zero := by
  rw [additions, mem_filterMap]
  constructor
  · rintro ⟨op, hop, heq⟩
    obtain ⟨rfl, hw⟩ := Operation.eq_add_of_addition? heq
    exact ⟨hop, hw⟩
  · exact fun ⟨hop, hw⟩ => ⟨.add t w, hop, if_neg hw⟩

theorem additions_concat_add (ops : List (Operation σ Λ ω κ)) (t : Transition σ Λ)
    (hw : w ≠ zero) : additions (ops ++ [.add t w]) = additions ops ++ [(t, w)] := by
  simp [additions, Operation.addition?, hw]

theorem additions_concat_of_none (ops : List (Operation σ Λ ω κ)) (h : op.addition? = none) :
    additions (ops ++ [op]) = additions ops := by
  simp [additions, h]

variable [DecidableEq σ] [DecidableEq Λ]

/-- The transitions added, in the order in which they came first. -/
def arrivals (ops : List (Operation σ Λ ω κ)) : List (Transition σ Λ) :=
  ((additions ops).map Prod.fst).eraseDups

theorem mem_arrivals_iff : t ∈ arrivals ops ↔ ∃ w, .add t w ∈ ops ∧ w ≠ zero := by
  rw [arrivals, mem_eraseDups, mem_map]
  constructor
  · rintro ⟨⟨u, w⟩, hmem, rfl⟩
    exact ⟨w, mem_additions_iff.1 hmem⟩
  · exact fun ⟨w, hw⟩ => ⟨(t, w), mem_additions_iff.2 hw, rfl⟩

/-- Both states of a transition are mentioned when it is added. -/
theorem states_subset_of_mem_arrivals (h : t ∈ arrivals ops) :
    ∀ s ∈ [t.source, t.target], s ∈ ops.flatMap Operation.states := by
  obtain ⟨w, hadd, hw⟩ := mem_arrivals_iff.1 h
  intro s hs
  refine mem_flatMap.2 ⟨_, hadd, ?_⟩
  rwa [Operation.states, if_neg hw]

/-- The weights that the transition was added with. -/
def weightsAdded (ops : List (Operation σ Λ ω κ)) (t : Transition σ Λ) : List ω :=
  valuesOf (additions ops) t

theorem mem_weightsAdded_iff : w ∈ weightsAdded ops t ↔ .add t w ∈ ops ∧ w ≠ zero := by
  rw [← mem_additions_iff, weightsAdded, valuesOf]
  simp

theorem weightsAdded_eq_nil_iff : weightsAdded ops t = [] ↔ t ∉ arrivals ops := by
  rw [mem_arrivals_iff, List.eq_nil_iff_forall_not_mem, not_exists]
  exact forall_congr' fun w => not_congr mem_weightsAdded_iff

theorem weightsAdded_concat_add (ops : List (Operation σ Λ ω κ)) (t u : Transition σ Λ)
    (hw : w ≠ zero) :
    weightsAdded (ops ++ [.add t w]) u =
      if t = u then weightsAdded ops u ++ [w] else weightsAdded ops u := by
  rw [weightsAdded, additions_concat_add ops t hw, valuesOf, List.filter_append, map_append]
  by_cases h : t = u <;> simp [weightsAdded, valuesOf, h]

theorem arrivals_concat_add (ops : List (Operation σ Λ ω κ)) (t : Transition σ Λ)
    (hw : w ≠ zero) : arrivals (ops ++ [.add t w]) = addNew (arrivals ops) t := by
  rw [arrivals, additions_concat_add ops t hw, map_append]
  exact eraseDups_concat _ t

end Additions

variable [DecidableEq σ] [Hashable σ] [DecidableEq Λ] [Hashable Λ]

/-! ### Histories -/

/-- An automaton, with all that it has delivered so far. -/
structure History (σ Λ ω κ : Type) [DecidableEq σ] [Hashable σ] [DecidableEq Λ] [Hashable Λ] where
  automaton : Automaton σ Λ ω κ := .empty
  deliveries : List (Delivery σ Λ ω κ) := []

variable [Weight ω] [DecidableEq ω] {ops : List (Operation σ Λ ω κ)}

/-- Performs an operation. -/
def History.perform (h : History σ Λ ω κ) : Operation σ Λ ω κ → History σ Λ ω κ
  | .add t w => { h with automaton := h.automaton.add t w }
  | .addInitial s => { h with automaton := h.automaton.addInitial s }
  | .addFinal s => { h with automaton := h.automaton.addFinal s }
  | .listen topic k => { h with automaton := h.automaton.listen topic k }
  | .poll =>
    match h.automaton.poll? with
    | some (d, a) => ⟨a, h.deliveries ++ [d]⟩
    | none => h

/-- The automaton that the operations make of the one without states. -/
def replay (ops : List (Operation σ Λ ω κ)) : History σ Λ ω κ := ops.foldl History.perform {}

theorem replay_concat (ops : List (Operation σ Λ ω κ)) (op : Operation σ Λ ω κ) :
    replay (ops ++ [op]) = (replay ops).perform op := by
  simp [replay]

/-- Asking for the next event delivers it and takes it from the queue, if there is one. -/
theorem History.perform_poll_cases (h : History σ Λ ω κ) :
    h.perform .poll = h ∨ ∃ d a, h.automaton.poll? = some (d, a) ∧
      h.perform .poll = ⟨a, h.deliveries ++ [d]⟩ := by
  unfold History.perform
  cases hpoll : h.automaton.poll? with
  | none => exact .inl rfl
  | some next => exact .inr ⟨next.1, next.2, rfl, rfl⟩

/-- The contents of an automaton other than its queue are not affected by a delivery. -/
theorem History.automaton_perform_poll (h : History σ Λ ω κ) :
    ∃ events, (h.perform .poll).automaton = { h.automaton with events } := by
  rcases h.perform_poll_cases with heq | ⟨d, a, hpoll, heq⟩
  · exact ⟨h.automaton.events, by rw [heq]⟩
  · obtain ⟨events, rfl, -⟩ := poll?_eq_some hpoll
    exact ⟨events, by rw [heq]⟩

theorem consistent_replay [ZeroFree ω] (ops : List (Operation σ Λ ω κ)) :
    (replay ops).automaton.Consistent := by
  induction ops using List.reverseRecOn with
  | nil => exact consistent_empty
  | append_singleton ops op ih =>
    rw [replay_concat]
    cases op with
    | add t w => exact consistent_add ih t w
    | addInitial s => exact consistent_addInitial ih s
    | addFinal s => exact consistent_addFinal ih s
    | listen topic k => exact consistent_listen ih topic k
    | poll =>
      rcases (replay ops).perform_poll_cases with heq | ⟨d, a, hpoll, heq⟩
      · rwa [heq]
      · rw [heq]
        exact consistent_of_poll? ih hpoll

/-! ### Weights -/

/-- An operation that adds nothing leaves the transitions and their weights. -/
theorem store_perform_of_none (h : History σ Λ ω κ) (hop : op.addition? = none) :
    (h.perform op).automaton.weights = h.automaton.weights ∧
      (h.perform op).automaton.stored = h.automaton.stored := by
  cases op with
  | add t w =>
    have hw : w = zero := by simpa [Operation.addition?] using hop
    rw [History.perform, hw, add_zero]
    exact ⟨rfl, rfl⟩
  | addInitial | addFinal => exact ⟨rfl, rfl⟩
  | listen topic => cases topic <;> exact ⟨rfl, rfl⟩
  | poll =>
    obtain ⟨events, heq⟩ := h.automaton_perform_poll
    rw [heq]
    exact ⟨rfl, rfl⟩

/-- A transition weighs what the weights that it was added with combine to. -/
theorem weight?_replay (ops : List (Operation σ Λ ω κ)) (u : Transition σ Λ) :
    (replay ops).automaton.weight? u = Weight.combineAll? (weightsAdded ops u) := by
  induction ops using List.reverseRecOn with
  | nil => simp [replay, weight?, empty, weightsAdded, additions, valuesOf, Weight.combineAll?]
  | append_singleton ops op ih =>
    rw [replay_concat]
    cases hop : op.addition? with
    | none =>
      rw [weight?, (store_perform_of_none _ hop).1, ← weight?, ih, weightsAdded, weightsAdded,
        additions_concat_of_none ops hop]
    | some x =>
      obtain ⟨rfl, hw⟩ := Operation.eq_add_of_addition? hop
      rw [weightsAdded_concat_add ops x.1 u hw, History.perform]
      by_cases heq : x.1 = u
      · subst heq
        rw [if_pos rfl, weight?_add_self _ _ hw, Weight.combineAll?_concat, ih]
        cases Weight.combineAll? (weightsAdded ops x.1) <;> rfl
      · rw [if_neg heq, weight?_add_of_ne _ x.2 (Ne.symm heq), ih]

theorem weight?_replay_eq_none_iff (ops : List (Operation σ Λ ω κ)) (t : Transition σ Λ) :
    (replay ops).automaton.weight? t = none ↔ t ∉ arrivals ops := by
  rw [weight?_replay, Weight.combineAll?_eq_none_iff, weightsAdded_eq_nil_iff]

/-! ### Transitions -/

/-- A transition that is new goes to the end of each of its topics. -/
theorem transitionsOf_add (a : Automaton σ Λ ω κ) (t : Transition σ Λ) {w : ω}
    (hw : w ≠ zero) (topic : Topic σ Λ) :
    (a.add t w).transitionsOf topic =
      if a.weight? t = none ∧ topic.IsAbout t then a.transitionsOf topic ++ [t]
      else a.transitionsOf topic := by
  unfold add
  rw [if_neg hw]
  cases hold : a.weight? t with
  | some =>
    rw [if_neg fun h => nomatch h.1]
    dsimp only
    split <;> rfl
  | none =>
    simp only [transitionsOf, announce, mention, Transition.topics, foldl_cons, foldl_nil, get_file]
    cases topic <;> grind [Topic.IsAbout]

/-- The transitions of a topic are those of the transitions added that it is about, in the
    order in which they came first. -/
theorem transitionsOf_replay (ops : List (Operation σ Λ ω κ)) (topic : Topic σ Λ) :
    (replay ops).automaton.transitionsOf topic = (arrivals ops).filter (topic.IsAbout ·) := by
  induction ops using List.reverseRecOn with
  | nil => simp [replay, transitionsOf, empty, arrivals, additions]
  | append_singleton ops op ih =>
    rw [replay_concat]
    cases hop : op.addition? with
    | none =>
      rw [transitionsOf, (store_perform_of_none _ hop).2, ← transitionsOf, ih, arrivals, arrivals,
        additions_concat_of_none ops hop]
    | some x =>
      obtain ⟨rfl, hw⟩ := Operation.eq_add_of_addition? hop
      rw [History.perform, transitionsOf_add _ x.1 hw, ih, arrivals_concat_add ops x.1 hw, addNew]
      simp only [weight?_replay_eq_none_iff]
      by_cases hnew : x.1 ∈ arrivals ops
      · simp [hnew]
      · by_cases habout : topic.IsAbout x.1 <;> simp [hnew, habout]

theorem transitions_replay (ops : List (Operation σ Λ ω κ)) :
    (replay ops).automaton.transitions = arrivals ops := by
  rw [transitions, transitionsOf_replay]
  exact List.filter_eq_self.2 fun _ _ => rfl

theorem mem_transitions_replay_iff :
    t ∈ (replay ops).automaton.transitions ↔ ((replay ops).automaton.weight? t).isSome = true := by
  rw [transitions_replay, Option.isSome_iff_ne_none, Ne, weight?_replay_eq_none_iff, not_not]

/-! ### States -/

omit [Weight ω] [DecidableEq ω] in
theorem toList_states_mention (a : Automaton σ Λ ω κ) {l : List σ}
    (h : a.states.toList = l.eraseDups) (s : σ) :
    (a.mention s).states.toList = (l ++ [s]).eraseDups := by
  rw [eraseDups_concat, ← h]
  exact OrderedSet.toList_insert_eq a.states s

/-- A stored transition has its states already. -/
theorem states_add_of_weight? {a : Automaton σ Λ ω κ} {old : ω} (h : a.weight? t = some old)
    (w : ω) : (a.add t w).states = a.states := by
  rcases add_cases a t w with ⟨heq, -⟩ | ⟨_, -, heq⟩ | ⟨-, hnone, -⟩
  · rw [heq]
  · rw [heq]
    rfl
  · rw [h] at hnone
    cases hnone

/-- The states are those that the operations mention, in the order in which they did. -/
theorem toList_states_replay (ops : List (Operation σ Λ ω κ)) :
    (replay ops).automaton.states.toList = (ops.flatMap Operation.states).eraseDups := by
  induction ops using List.reverseRecOn with
  | nil => rfl
  | append_singleton ops op ih =>
    rw [replay_concat, List.flatMap_append, List.flatMap_singleton]
    cases op with
    | add t w =>
      by_cases hw : w = zero
      · simp [History.perform, hw, add_zero, ih, Operation.states]
      · simp only [History.perform, Operation.states, if_neg hw]
        cases hold : (replay ops).automaton.weight? t with
        | none =>
          have hstates : ((replay ops).automaton.add t w).states =
              (((replay ops).automaton.mention t.source).mention t.target).states := by
            simp [add, hw, hold, announce]
          rw [hstates, toList_states_mention _ (toList_states_mention _ ih _), append_assoc]
          rfl
        | some =>
          -- Both its states were mentioned when the transition was added first.
          have hmem : t ∈ arrivals ops := by
            rw [← transitions_replay, mem_transitions_replay_iff, hold]
            rfl
          rw [states_add_of_weight? hold, ih,
            eraseDups_append_of_subset (states_subset_of_mem_arrivals hmem)]
    | addInitial s | addFinal s => exact toList_states_mention _ ih s
    | listen topic =>
      cases topic with
      | out s | outBy s _ | into s => exact toList_states_mention _ ih s
      | all => simpa [History.perform, listen, Topic.state?, Operation.states] using ih
    | poll =>
      obtain ⟨events, heq⟩ := (replay ops).automaton_perform_poll
      simpa [heq, Operation.states] using ih

theorem source_mem_states_replay (ht : t ∈ (replay ops).automaton.transitions) :
    t.source ∈ (replay ops).automaton.states := by
  show _ ∈ OrderedSet.toList _
  rw [transitions_replay] at ht
  rw [toList_states_replay]
  exact mem_eraseDups.2 (states_subset_of_mem_arrivals ht _ mem_cons_self)

/-! ### Changes -/

/-- Adding a transition is said to change the automaton just if it changes a weight. -/
theorem changesBy_iff (a : Automaton σ Λ ω κ) (t : Transition σ Λ) (w : ω) :
    a.changesBy t w = true ↔ ∃ u, (a.add t w).weight? u ≠ a.weight? u := by
  have hself : a.changesBy t w = true ↔ (a.add t w).weight? t ≠ a.weight? t := by
    unfold changesBy
    by_cases hw : w = zero
    · rw [if_pos hw, hw, add_zero]
      exact iff_of_false Bool.false_ne_true fun h => h rfl
    · rw [if_neg hw, weight?_add_self _ _ hw]
      cases a.weight? t <;> simp
  refine hself.trans ⟨fun h => ⟨t, h⟩, fun ⟨u, hu⟩ => ?_⟩
  have hut : u = t := Classical.byContradiction fun hne => hu (weight?_add_of_ne a w hne)
  exact hut ▸ hu

theorem add_eq_self {a : Automaton σ Λ ω κ} {w : ω} (h : a.changesBy t w = false) :
    a.add t w = a := by
  unfold changesBy at h
  unfold add
  split
  · rfl
  · next hw =>
    rw [if_neg hw] at h
    cases hold : a.weight? t with
    | some =>
      rw [hold] at h
      exact if_pos (by simpa using h)
    | none =>
      rw [hold] at h
      cases h

/-! ### The store -/

/-- The automaton stores what the operations add: each transition once, with the combination of
    its weights, and in each of its topics. Its states are those that the operations mention. -/
structure Stores (a : Automaton σ Λ ω κ) (ops : List (Operation σ Λ ω κ)) : Prop where
  nodup : a.transitions.Nodup
  mem_iff : ∀ t, t ∈ a.transitions ↔ ∃ w, .add t w ∈ ops ∧ w ≠ zero
  weight : ∀ t ∈ a.transitions,
    a.weight? t = some ((weightsAdded ops t).foldr combine zero) ∧ a.weight t ≠ zero
  absent : ∀ t, t ∉ a.transitions → a.weight? t = none
  order : a.transitions = arrivals ops
  topics : ∀ topic, a.transitionsOf topic = a.transitions.filter (topic.IsAbout ·)
  states : a.states.toList = (ops.flatMap Operation.states).eraseDups
  numbered : ∀ s i, a.states.indexOf? s = some i ↔ a.states.get? i = some s
  seen : ∀ s, (∃ i, a.states.indexOf? s = some i) ↔ ∃ op ∈ ops, s ∈ op.states
  changes : ∀ t w, a.changesBy t w = true ↔ ∃ u, (a.add t w).weight? u ≠ a.weight? u
  unchanged : ∀ t w, a.changesBy t w = false → a.add t w = a

/-- The two automata store the same transitions with the same weights, in whatever order. -/
structure SameStore (a a' : Automaton σ Λ ω κ) : Prop where
  weight : ∀ t, a.weight? t = a'.weight? t
  transitions : ∀ topic, (a.transitionsOf topic).Perm (a'.transitionsOf topic)

theorem weight?_replay_eq_foldr [LawfulCombine ω] (h : t ∈ arrivals ops) :
    (replay ops).automaton.weight? t = some ((weightsAdded ops t).foldr combine zero) := by
  rw [weight?_replay, Weight.combineAll?_eq_foldr]
  exact fun hnil => weightsAdded_eq_nil_iff.1 hnil h

theorem sameStore_replay [LawfulCombine ω] {ops' : List (Operation σ Λ ω κ)}
    (h : ∀ t w, .add t w ∈ ops ↔ .add t w ∈ ops') :
    (replay ops).automaton.SameStore (replay ops').automaton := by
  have harrivals : ∀ t, t ∈ arrivals ops ↔ t ∈ arrivals ops' := fun t => by
    simp only [mem_arrivals_iff, h]
  refine ⟨fun t => ?_, fun topic => ?_⟩
  · by_cases ht : t ∈ arrivals ops
    · rw [weight?_replay_eq_foldr ht, weight?_replay_eq_foldr ((harrivals t).1 ht),
        Weight.foldr_combine_congr]
      simp only [mem_weightsAdded_iff, h, implies_true]
    · rw [(weight?_replay_eq_none_iff ops t).2 ht,
        (weight?_replay_eq_none_iff ops' t).2 (mt (harrivals t).2 ht)]
  · have hperm : (arrivals ops).Perm (arrivals ops') :=
      (List.perm_ext_iff_of_nodup (nodup_eraseDups _) (nodup_eraseDups _)).2 harrivals
    rw [transitionsOf_replay, transitionsOf_replay]
    exact hperm.filter _

/-- Whatever is done with an automaton, its store is a map from transitions to combined weights.
    The order of the additions matters for the order of the transitions only, and that of the
    operations for the numbers of the states only. -/
theorem stores_replay [LawfulCombine ω] (ops : List (Operation σ Λ ω κ)) :
    (replay ops).automaton.Stores ops ∧
      (∀ ops', (∀ t w, .add t w ∈ ops ↔ .add t w ∈ ops') →
        (replay ops).automaton.SameStore (replay ops').automaton) ∧
      ∀ ops', (∀ op, op ≠ .poll → (op ∈ ops ↔ op ∈ ops')) →
        (replay ops).automaton.states.toList.Perm (replay ops').automaton.states.toList := by
  have hseen : ∀ (ops : List (Operation σ Λ ω κ)) s,
      s ∈ (replay ops).automaton.states.toList ↔ ∃ op ∈ ops, s ∈ op.states := fun ops s => by
    rw [toList_states_replay, mem_eraseDups, mem_flatMap]
  refine ⟨⟨?_, ?_, fun t ht => ?_, fun t ht => ?_, transitions_replay ops, fun topic => ?_,
    toList_states_replay ops, OrderedSet.indexOf?_eq_some_iff _, fun s => ?_, changesBy_iff _,
    fun _ _ => add_eq_self⟩, fun _ => sameStore_replay, fun ops' h => ?_⟩
  · rw [transitions_replay]
    exact nodup_eraseDups _
  · rw [transitions_replay]
    exact fun _ => mem_arrivals_iff
  · rw [transitions_replay] at ht
    have hweight := weight?_replay_eq_foldr ht
    refine ⟨hweight, ?_⟩
    rw [Automaton.weight, hweight]
    exact Weight.foldr_combine_ne_zero (fun hnil => weightsAdded_eq_nil_iff.1 hnil ht)
      fun w hw => (mem_weightsAdded_iff.1 hw).2
  · rw [transitions_replay] at ht
    exact (weight?_replay_eq_none_iff ops t).2 ht
  · rw [transitionsOf_replay, transitions_replay]
  · rw [← OrderedSet.mem_iff_exists_indexOf?]
    exact hseen ops s
  · refine (List.perm_ext_iff_of_nodup (OrderedSet.nodup_toList _) (OrderedSet.nodup_toList _)).2
      fun s => ?_
    rw [hseen, hseen]
    have hpoll : ∀ op : Operation σ Λ ω κ, s ∈ op.states → op ≠ .poll :=
      fun op hs heq => by simp [heq, Operation.states] at hs
    constructor
    · rintro ⟨op, hop, hs⟩
      exact ⟨op, (h op (hpoll op hs)).1 hop, hs⟩
    · rintro ⟨op, hop, hs⟩
      exact ⟨op, (h op (hpoll op hs)).2 hop, hs⟩

/-- Two distances, one of them corrected. -/
def corrected : List (Operation Nat Nat Distance Unit) :=
  [.add ⟨0, 7, 1⟩ ⟨some 9⟩, .listen (.into 3) (), .add ⟨0, 8, 2⟩ ⟨some 5⟩, .add ⟨0, 7, 1⟩ ⟨some 4⟩,
    .add ⟨2, 7, 0⟩ ⟨none⟩]

/-- The same distances the other way round. -/
def reversed : List (Operation Nat Nat Distance Unit) :=
  [.add ⟨2, 7, 0⟩ ⟨none⟩, .add ⟨0, 7, 1⟩ ⟨some 4⟩, .add ⟨0, 8, 2⟩ ⟨some 5⟩, .listen (.into 3) (),
    .poll, .add ⟨0, 7, 1⟩ ⟨some 9⟩]

/-- The shorter distance counts, whichever comes first, and no distance is no transition. -/
theorem store_corrected :
    (replay corrected).automaton.transitionsOf (.out 0) = [⟨0, 7, 1⟩, ⟨0, 8, 2⟩] ∧
      (replay corrected).automaton.weight? ⟨0, 7, 1⟩ = some ⟨some 4⟩ ∧
      (replay corrected).automaton.weight? ⟨2, 7, 0⟩ = none ∧
      (replay corrected).automaton.states.toList = [0, 1, 3, 2] ∧
      (replay corrected).automaton.SameStore (replay reversed).automaton ∧
      (replay corrected).automaton.states.toList.Perm
        (replay reversed).automaton.states.toList := by
  obtain ⟨hstores, hsame, hstates⟩ := stores_replay corrected
  have hmem : ⟨0, 7, 1⟩ ∈ (replay corrected).automaton.transitions :=
    (hstores.mem_iff _).2 ⟨⟨some 9⟩, mem_cons_self, by decide⟩
  refine ⟨?_, (hstores.weight _ hmem).1, hstores.absent _ ?_, hstores.states.trans (by decide),
    hsame reversed ?_, hstates reversed ?_⟩
  · rw [hstores.topics, hstores.order]
    decide
  · rw [hstores.order]
    decide
  · simp only [corrected, reversed, mem_cons, Operation.add.injEq]
    grind
  · simp only [corrected, reversed, mem_cons]
    grind

end Automaton

end DemandAlias
