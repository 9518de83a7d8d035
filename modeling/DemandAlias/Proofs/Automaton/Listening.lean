import DemandAlias.Automaton.Basic
import DemandAlias.Proofs.Weight

/-!
# Nobody misses a transition

Whoever listens to a topic is told of every transition of the topic, whichever of the
two comes first: registering replays the transitions that are there, and a transition
that arrives is announced to the listeners that are there. So at any time an event is
queued for every pair of a listener and a transition of its topic, or was delivered
before.

* `Consistent`: the transitions are filed by their topics and have a weight, and
  events are for listeners of their transition;
* `Told`: every pair of a listener and a transition is queued or dealt with;
* `told_add`, `told_listen`, `told_of_poll?`: what the operations make of that.
-/

namespace DemandAlias

open Std
open OrderedSet (mem_insert)

theorem mem_get_file {α β : Type} [DecidableEq α] [Hashable α] (m : Multimap α β)
    (a a' : α) (b b' : β) : b' ∈ (m.file a b).get a' ↔ b' ∈ m.get a' ∨ a' = a ∧ b' = b := by
  rw [get_file]
  split
  · next heq => simp [heq]
  · next hne => simp [Ne.symm hne]

/-- Filing a value under several keys adds it to the values of each of them. -/
theorem mem_get_foldl_file {α β : Type} [DecidableEq α] [Hashable α] (keys : List α)
    (b : β) (m : Multimap α β) (a : α) (u : β) :
    u ∈ (keys.foldl (fun m key => m.file key b) m).get a ↔ u ∈ m.get a ∨ u = b ∧ a ∈ keys := by
  induction keys generalizing m with
  | nil => simp
  | cons key keys ih =>
    rw [foldl_cons, ih, get_file]
    by_cases h : key = a
    · subst h
      rw [if_pos rfl, mem_append, mem_singleton]
      have hkey : key ∈ key :: keys := mem_cons_self
      exact ⟨fun h => h.elim (fun h => h.imp_right fun h => ⟨h, hkey⟩) fun h => .inr ⟨h.1, hkey⟩,
        fun h => .inl (h.imp_right And.left)⟩
    · simp only [if_neg h, mem_cons, Ne.symm h, false_or]

section

variable {σ Λ : Type} (t : Transition σ Λ)

theorem Transition.all_mem_topics : .all ∈ t.topics := by
  simp [topics]

theorem Transition.out_mem_topics : .out t.source ∈ t.topics := by
  simp [topics]

theorem Transition.outBy_mem_topics : .outBy t.source t.label ∈ t.topics := by
  simp [topics]

theorem Transition.into_mem_topics : .into t.target ∈ t.topics := by
  simp [topics]

end

namespace Automaton

variable {σ Λ ω κ : Type} [DecidableEq σ] [Hashable σ] [DecidableEq Λ] [Hashable Λ]
  {done : κ → Transition σ Λ → Prop} {t : Transition σ Λ}
variable {a : Automaton σ Λ ω κ}

/-! ### Listening and being told -/

/-- `k` is registered for the topic. -/
def Listens (a : Automaton σ Λ ω κ) (topic : Topic σ Λ) (k : κ) : Prop := k ∈ a.listeners.get topic

/-- An event of `t` is queued for `k`. -/
def Queued (a : Automaton σ Λ ω κ) (k : κ) (t : Transition σ Λ) : Prop := (k, t) ∈ a.events.toList

/-- Every listener was told of every transition of its topic, which `done` says, or is
    about to be. -/
def Told (a : Automaton σ Λ ω κ) (done : κ → Transition σ Λ → Prop) : Prop :=
  ∀ topic k t, a.Listens topic k → t ∈ a.transitions → topic ∈ t.topics → a.Queued k t ∨ done k t

theorem Told.mono {done done' : κ → Transition σ Λ → Prop} (h : a.Told done)
    (hd : ∀ k t, done k t → done' k t) : a.Told done' :=
  fun topic k t hk ht htopic => (h topic k t hk ht htopic).imp_right (hd k t)

theorem not_queued_of_idle (hidle : a.hasEvents = false) {k : κ} : ¬a.Queued k t := by
  have hnil : a.events.toList = [] := by
    rw [← Queue.isEmpty_iff]
    simpa [hasEvents] using hidle
  rw [Queued, hnil]
  exact not_mem_nil

/-- If no event is queued, all listeners were told of all transitions. -/
theorem Told.done_of_idle (ht : a.Told done) (hidle : a.hasEvents = false) {topic : Topic σ Λ}
    {k : κ} (hk : a.Listens topic k) (hmem : t ∈ a.transitions) (htopic : topic ∈ t.topics) :
    done k t :=
  (ht topic k t hk hmem htopic).resolve_left (not_queued_of_idle hidle)

/-- The transitions are filed by their topics, each with a weight other than zero, their
    sources and the final states are among the states, and events are for listeners of a
    topic of their transition. -/
structure Consistent [Weight ω] (a : Automaton σ Λ ω κ) : Prop where
  stored : ∀ topic t, t ∈ a.transitionsOf topic ↔ topic ∈ t.topics ∧ (a.weight? t).isSome = true
  weight_ne : ∀ t, a.weight? t ≠ some zero
  sources : ∀ t, (a.weight? t).isSome = true → t.source ∈ a.states
  finals : ∀ q, q ∈ a.final → q ∈ a.states
  events : ∀ k t, a.Queued k t → t ∈ a.transitions ∧ ∃ topic ∈ t.topics, a.Listens topic k

namespace Consistent

variable [Weight ω]

theorem mem_transitions_iff (h : a.Consistent) (t : Transition σ Λ) :
    t ∈ a.transitions ↔ (a.weight? t).isSome = true := by
  rw [transitions, h.stored]
  exact and_iff_right t.all_mem_topics

/-- The transitions of a topic are those that belong to it. -/
theorem mem_transitionsOf_iff (h : a.Consistent) (topic : Topic σ Λ) (t : Transition σ Λ) :
    t ∈ a.transitionsOf topic ↔ t ∈ a.transitions ∧ topic ∈ t.topics := by
  rw [h.stored, h.mem_transitions_iff, and_comm]

variable (h : a.Consistent) (ht : t ∈ a.transitions)
include h ht

theorem source_mem_states : t.source ∈ a.states := h.sources t ((h.mem_transitions_iff t).1 ht)

theorem weight?_eq_weight : a.weight? t = some (a.weight t) := by
  obtain ⟨w, hw⟩ := isSome_iff_exists.1 ((h.mem_transitions_iff t).1 ht)
  rw [weight, hw, getD_some]

/-- The weight a transition is delivered with is not zero. -/
theorem weight_ne_zero : a.weight t ≠ zero :=
  fun hzero => h.weight_ne t (hzero ▸ h.weight?_eq_weight ht)

end Consistent

/-! ### The automaton without states -/

theorem consistent_empty [Weight ω] : (empty : Automaton σ Λ ω κ).Consistent where
  stored topic t := by simp [transitionsOf, weight?, empty]
  weight_ne t := by simp [weight?, empty]
  sources t h := by simp [weight?, empty] at h
  finals q h := nomatch h
  events k t h := by simp [Queued, empty] at h

theorem told_empty (done : κ → Transition σ Λ → Prop) :
    (empty : Automaton σ Λ ω κ).Told done :=
  fun _ _ _ _ ht => by simp [transitions, transitionsOf, empty] at ht

/-! ### Marking states -/

theorem consistent_addFinal [Weight ω] (h : a.Consistent) (s : σ) : (a.addFinal s).Consistent where
  stored := h.stored
  weight_ne := h.weight_ne
  sources t ht := (mem_insert ..).2 (.inr (h.sources t ht))
  finals q hq := by
    rcases (mem_insert ..).1 hq with rfl | hq
    · exact (mem_insert ..).2 (.inl rfl)
    · exact (mem_insert ..).2 (.inr (h.finals q hq))
  events := h.events

theorem consistent_addInitial [Weight ω] (h : a.Consistent) (s : σ) :
    (a.addInitial s).Consistent where
  stored := h.stored
  weight_ne := h.weight_ne
  sources t ht := (mem_insert ..).2 (.inr (h.sources t ht))
  finals q hq := (mem_insert ..).2 (.inr (h.finals q hq))
  events := h.events

/-! ### Announcements -/

/-- What an announcement queues. -/
theorem queued_announce (a : Automaton σ Λ ω κ) (t u : Transition σ Λ) (k : κ) :
    (a.announce t).Queued k u ↔ a.Queued k u ∨ u = t ∧ ∃ topic ∈ t.topics, a.Listens topic k := by
  simp only [Queued, announce, Queue.toList_pushAll, mem_append, mem_flatMap, mem_map, Listens]
  constructor
  · rintro (h | ⟨topic, htopic, k', hk', heq⟩)
    · exact .inl h
    · cases heq
      exact .inr ⟨rfl, topic, htopic, hk'⟩
  · rintro (h | ⟨rfl, topic, htopic, hk⟩)
    · exact .inl h
    · exact .inr ⟨topic, htopic, k, hk, rfl⟩

theorem consistent_announce [Weight ω] (h : a.Consistent) (ht : t ∈ a.transitions) :
    (a.announce t).Consistent := by
  refine { h with events := fun k u hu => ?_ }
  rcases (queued_announce a t u k).1 hu with hu | ⟨rfl, hk⟩
  · exact h.events k u hu
  · exact ⟨ht, hk⟩

/-! ### Adding transitions -/

section Add

variable [Weight ω] [DecidableEq ω]

section

variable (a : Automaton σ Λ ω κ) (t : Transition σ Λ) (w : ω)

/-- Adding a transition changes nothing, or its weight, or files it by its topics; in
    the last two cases it is announced. -/
theorem add_cases :
    (a.add t w = a ∧ (w = zero ∨ (a.weight? t).isSome = true)) ∨
    (∃ old, a.weight? t = some old ∧
      a.add t w = { a with weights := a.weights.insert t (combine old w) }.announce t) ∨
    (w ≠ zero ∧ a.weight? t = none ∧ ∃ states : OrderedSet σ,
      (t.source ∈ states ∧ ∀ q, q ∈ a.states → q ∈ states) ∧ a.add t w = { a with
        states
        weights := a.weights.insert t w
        stored := t.topics.foldl (fun m topic => m.file topic t) a.stored }.announce t) := by
  unfold add
  split
  · next hw => exact .inl ⟨rfl, .inl hw⟩
  · next hw =>
    split
    · next old hold =>
      dsimp only
      split
      · exact .inl ⟨rfl, .inr (by rw [hold]; rfl)⟩
      · exact .inr (.inl ⟨old, hold, rfl⟩)
    · next hnone =>
      refine .inr (.inr ⟨hw, hnone, _, ?_, rfl⟩)
      simp only [mention, mem_insert]
      exact ⟨.inr (.inl trivial), fun q hq => .inr (.inr hq)⟩

@[simp] theorem listens_add (topic : Topic σ Λ) (k : κ) :
    (a.add t w).Listens topic k ↔ a.Listens topic k := by
  rcases add_cases a t w with ⟨h, -⟩ | ⟨old, -, h⟩ | ⟨-, -, states, -, h⟩
  · rw [h]
  · rw [h]; rfl
  · rw [h]; rfl

@[simp] theorem final_add : (a.add t w).final = a.final := by
  rcases add_cases a t w with ⟨h, -⟩ | ⟨old, -, h⟩ | ⟨-, -, states, -, h⟩
  · rw [h]
  · rw [h]; rfl
  · rw [h]; rfl

@[simp] theorem initial_add : (a.add t w).initial = a.initial := by
  rcases add_cases a t w with ⟨h, -⟩ | ⟨old, -, h⟩ | ⟨-, -, states, -, h⟩
  · rw [h]
  · rw [h]; rfl
  · rw [h]; rfl

end

/-- What was queued stays queued. -/
theorem Queued.add {k : κ} {u : Transition σ Λ} (h : a.Queued k u) (t : Transition σ Λ) (w : ω) :
    (a.add t w).Queued k u := by
  rcases add_cases a t w with ⟨ha, -⟩ | ⟨old, -, ha⟩ | ⟨-, -, states, -, ha⟩
  · rwa [ha]
  · rw [ha]
    exact (queued_announce _ _ _ _).2 (.inl h)
  · rw [ha]
    exact (queued_announce _ _ _ _).2 (.inl h)

variable (h : a.Consistent)
include h

/-- Adding a transition adds just that transition, unless its weight is zero. -/
theorem mem_transitions_add (t u : Transition σ Λ) (w : ω) :
    u ∈ (a.add t w).transitions ↔ u ∈ a.transitions ∨ u = t ∧ w ≠ zero := by
  rcases add_cases a t w with ⟨ha, hw⟩ | ⟨old, hold, ha⟩ | ⟨hw, -, states, -, ha⟩
  · rw [ha]
    refine ⟨.inl, fun hu => hu.elim id ?_⟩
    rintro ⟨rfl, hne⟩
    exact (h.mem_transitions_iff u).2 (hw.resolve_left hne)
  · rw [ha]
    refine ⟨.inl, fun hu => hu.elim id ?_⟩
    rintro ⟨rfl, -⟩
    exact (h.mem_transitions_iff u).2 (by rw [hold]; rfl)
  · rw [ha]
    refine (mem_get_foldl_file t.topics t a.stored .all u).trans ?_
    exact or_congr_right ⟨fun hu => ⟨hu.1, hw⟩, fun hu => ⟨hu.1, t.all_mem_topics⟩⟩

theorem consistent_add [ZeroFree ω] (t : Transition σ Λ) (w : ω) : (a.add t w).Consistent := by
  rcases add_cases a t w with ⟨ha, -⟩ | ⟨old, hold, ha⟩ | ⟨hw, hnone, states, ⟨hsource, hstates⟩, ha⟩
  · rwa [ha]
  · -- The weight of a transition changes, and everything is filed as before.
    have hne : old ≠ zero := fun h0 => h.weight_ne t (h0 ▸ hold)
    have isSome : (a.weight? t).isSome = true := by rw [hold]; rfl
    have ht : t ∈ a.transitions := (h.mem_transitions_iff t).2 isSome
    rw [ha]
    refine consistent_announce ⟨fun topic u => ?_, fun u hu => ?_, fun u hu => ?_, ?_, ?_⟩ ?_
    · refine (h.stored topic u).trans (and_congr_right fun _ => ?_)
      simp only [weight?, HashMap.getElem?_insert]
      split
      · next heq => rw [← eq_of_beq heq]; exact iff_of_true isSome rfl
      · exact Iff.rfl
    · simp only [weight?, HashMap.getElem?_insert] at hu
      split at hu
      · exact ZeroFree.combine_ne_zero hne (some.inj hu)
      · exact h.weight_ne u hu
    · simp only [weight?, HashMap.getElem?_insert] at hu
      split at hu
      · next heq => exact eq_of_beq heq ▸ h.sources t isSome
      · exact h.sources u hu
    · exact h.finals
    · exact h.events
    · exact ht
  · -- The transition is new, and is filed under its topics.
    rw [ha]
    refine consistent_announce ⟨fun topic u => ?_, fun u hu => ?_, fun u hu => ?_, ?_,
      fun k u hu => ?_⟩ ?_
    · refine (mem_get_foldl_file t.topics t a.stored topic u).trans ?_
      rw [← transitionsOf, h.stored]
      simp only [weight?, HashMap.getElem?_insert]
      by_cases heq : t = u
      · subst heq
        rw [weight?] at hnone
        simp [hnone]
      · simp [heq, Ne.symm heq]
    · simp only [weight?, HashMap.getElem?_insert] at hu
      split at hu
      · exact hw (some.inj hu)
      · exact h.weight_ne u hu
    · simp only [weight?, HashMap.getElem?_insert] at hu
      split at hu
      · next heq => exact eq_of_beq heq ▸ hsource
      · exact hstates _ (h.sources u hu)
    · exact fun q hq => hstates q (h.finals q hq)
    · obtain ⟨hmem, hk⟩ := h.events k u hu
      exact ⟨(mem_get_foldl_file t.topics t a.stored .all u).2 (.inl hmem), hk⟩
    · exact (mem_get_foldl_file t.topics t a.stored .all t).2
        (.inr ⟨rfl, t.all_mem_topics⟩)

/-- A transition that is new is announced to those who listen. -/
theorem queued_add {k : κ} {w : ω} (hw : w ≠ zero) (hnew : t ∉ a.transitions)
    {topic : Topic σ Λ} (htopic : topic ∈ t.topics) (hk : a.Listens topic k) :
    (a.add t w).Queued k t := by
  rcases add_cases a t w with ⟨-, h0⟩ | ⟨old, hold, -⟩ | ⟨-, -, states, -, ha⟩
  · exact absurd ((h.mem_transitions_iff t).2 (h0.resolve_left hw)) hnew
  · exact absurd ((h.mem_transitions_iff t).2 (by rw [hold]; rfl)) hnew
  · rw [ha]
    exact (queued_announce _ _ _ _).2 (.inr ⟨rfl, topic, htopic, hk⟩)

theorem told_add (ht : a.Told done) (t : Transition σ Λ) (w : ω) : (a.add t w).Told done := by
  intro topic k u hk hu htopic
  rw [listens_add] at hk
  by_cases hmem : u ∈ a.transitions
  · exact (ht topic k u hk hmem htopic).imp_left fun hq => hq.add t w
  · rcases (mem_transitions_add h t u w).1 hu with hu | ⟨rfl, hw⟩
    · exact absurd hu hmem
    · exact .inl (queued_add h hw hmem htopic hk)

end Add

/-! ### Listening -/

section Listen

section

variable (a : Automaton σ Λ ω κ) (topic : Topic σ Λ)

@[simp] theorem transitions_listen (k : κ) : (a.listen topic k).transitions = a.transitions := by
  cases topic <;> rfl

theorem weights_listen (k : κ) : (a.listen topic k).weights = a.weights := by
  cases topic <;> rfl

@[simp] theorem final_listen (k : κ) : (a.listen topic k).final = a.final := by
  cases topic <;> rfl

@[simp] theorem initial_listen (k : κ) : (a.listen topic k).initial = a.initial := by
  cases topic <;> rfl

/-- Registering a listener adds just that listener. -/
@[simp] theorem listens_listen (topic' : Topic σ Λ) (k k' : κ) :
    (a.listen topic k).Listens topic' k' ↔ a.Listens topic' k' ∨ topic' = topic ∧ k' = k := by
  have hlisteners : (a.listen topic k).listeners = a.listeners.file topic k := by
    cases topic <;> rfl
  rw [Listens, hlisteners, get_file]
  split
  · next heq => simp [Listens, heq]
  · next hne => simp [Listens, Ne.symm hne]

/-- What registering a listener queues. -/
theorem queued_listen (k k' : κ) (t : Transition σ Λ) :
    (a.listen topic k).Queued k' t ↔ a.Queued k' t ∨ k' = k ∧ t ∈ a.transitionsOf topic := by
  have hevents : (a.listen topic k).events =
      a.events.pushAll ((a.transitionsOf topic).map fun t => (k, t)) := by
    cases topic <;> rfl
  rw [Queued, hevents, Queue.toList_pushAll, mem_append, mem_map]
  refine or_congr_right ⟨?_, ?_⟩
  · rintro ⟨u, hu, heq⟩
    cases heq
    exact ⟨rfl, hu⟩
  · rintro ⟨rfl, ht⟩
    exact ⟨t, ht, rfl⟩

end

variable [Weight ω]

theorem consistent_listen (h : a.Consistent) (topic : Topic σ Λ) (k : κ) :
    (a.listen topic k).Consistent where
  stored := by cases topic <;> exact h.stored
  weight_ne := by cases topic <;> exact h.weight_ne
  sources t ht := by
    cases topic
    case all => exact h.sources t ht
    all_goals exact (mem_insert ..).2 (.inr (h.sources t ht))
  finals q hq := by
    cases topic
    case all => exact h.finals q hq
    all_goals exact (mem_insert ..).2 (.inr (h.finals q hq))
  events k' t ht := by
    rw [transitions_listen]
    simp only [listens_listen]
    rcases (queued_listen a topic k k' t).1 ht with hq | ⟨rfl, hof⟩
    · obtain ⟨hmem, topic', htopic', hk'⟩ := h.events k' t hq
      exact ⟨hmem, topic', htopic', .inl hk'⟩
    · obtain ⟨hmem, htopic⟩ := (h.mem_transitionsOf_iff topic t).1 hof
      exact ⟨hmem, topic, htopic, .inr ⟨rfl, rfl⟩⟩

theorem told_listen (h : a.Consistent) (ht : a.Told done) (topic : Topic σ Λ) (k : κ) :
    (a.listen topic k).Told done := by
  intro topic' k' t hk' hmem htopic'
  rw [transitions_listen] at hmem
  rcases (listens_listen a topic topic' k k').1 hk' with hk' | ⟨rfl, rfl⟩
  · exact (ht topic' k' t hk' hmem htopic').imp_left fun hq =>
      (queued_listen a topic k k' t).2 (.inl hq)
  · exact .inl ((queued_listen a topic' k' k' t).2
      (.inr ⟨rfl, (h.mem_transitionsOf_iff topic' t).2 ⟨hmem, htopic'⟩⟩))

end Listen

/-! ### One transition and one listener -/

section Seeded

variable [Weight ω] [DecidableEq ω]

/-- The automaton with a final state, a listener to everything and a transition. -/
def seeded (final : σ) (k : κ) (t : Transition σ Λ) (w : ω) : Automaton σ Λ ω κ :=
  ((empty.addFinal final).listen .all k).add t w

omit [DecidableEq ω] in
theorem consistent_unseeded (final : σ) (k : κ) :
    (((empty : Automaton σ Λ ω κ).addFinal final).listen .all k).Consistent :=
  consistent_listen (consistent_addFinal consistent_empty final) .all k

variable (final : σ) (k : κ) (t : Transition σ Λ) (w : ω)

theorem consistent_seeded [ZeroFree ω] : (seeded final k t w).Consistent :=
  consistent_add (consistent_unseeded final k) t w

theorem told_seeded (done : κ → Transition σ Λ → Prop) : (seeded final k t w).Told done :=
  told_add (consistent_unseeded final k) (told_listen (consistent_addFinal consistent_empty final)
    (told_empty (ω := ω) done) .all k) t w

@[simp] theorem listens_seeded (topic : Topic σ Λ) (k' : κ) :
    (seeded final k t w).Listens topic k' ↔ topic = .all ∧ k' = k := by
  rw [seeded, listens_add, listens_listen]
  refine or_iff_right fun h => ?_
  simp [Listens, addFinal, mention, empty] at h

theorem mem_transitions_seeded (u : Transition σ Λ) :
    u ∈ (seeded final k t w).transitions ↔ u = t ∧ w ≠ zero := by
  rw [seeded, mem_transitions_add (consistent_unseeded final k), transitions_listen]
  refine or_iff_right fun h => ?_
  simp [transitions, transitionsOf, addFinal, mention, empty] at h

theorem mem_final_seeded (q : σ) : q ∈ (seeded final k t w).final ↔ q = final := by
  rw [seeded, final_add, final_listen]
  refine (mem_insert ..).trans (or_iff_left fun h => ?_)
  cases h

end Seeded

/-! ### Delivering events -/

section Poll

variable [Weight ω]
variable {d : Delivery σ Λ ω κ} {a' : Automaton σ Λ ω κ}

/-- An event that is delivered leaves the queue, and nothing else changes. -/
theorem poll?_eq_some (h : a.poll? = some (d, a')) :
    ∃ events, a' = { a with events } ∧
      a.events.toList = (d.listener, d.transition) :: events.toList ∧
      d.weight = a.weight d.transition := by
  unfold poll? at h
  split at h
  · cases h
  · next hpop =>
    cases h
    exact ⟨_, rfl, Queue.toList_of_pop?_eq_some hpop, rfl⟩

theorem consistent_of_poll? (h : a.Consistent) (hp : a.poll? = some (d, a')) : a'.Consistent := by
  obtain ⟨events, rfl, hevents, -⟩ := poll?_eq_some hp
  refine { h with events := fun k t ht => h.events k t ?_ }
  rw [Queued, hevents]
  exact mem_cons_of_mem _ ht

/-- The event delivered is for a listener of a topic of its transition. -/
theorem delivered_of_poll? (h : a.Consistent) (hp : a.poll? = some (d, a')) :
    d.transition ∈ a.transitions ∧ d.weight ≠ zero ∧
      ∃ topic ∈ d.transition.topics, a.Listens topic d.listener := by
  obtain ⟨events, rfl, hevents, hweight⟩ := poll?_eq_some hp
  have hq : a.Queued d.listener d.transition := by
    rw [Queued, hevents]
    exact mem_cons_self
  obtain ⟨hmem, hk⟩ := h.events _ _ hq
  exact ⟨hmem, hweight ▸ h.weight_ne_zero hmem, hk⟩

/-- After a delivery only the event delivered remains to be dealt with. -/
theorem told_of_poll? (ht : a.Told done) (hp : a.poll? = some (d, a')) :
    a'.Told fun k t => done k t ∨ k = d.listener ∧ t = d.transition := by
  obtain ⟨events, rfl, hevents, -⟩ := poll?_eq_some hp
  intro topic k t hk hmem htopic
  rcases ht topic k t hk hmem htopic with hq | hdone
  · rw [Queued, hevents, mem_cons] at hq
    rcases hq with heq | hq
    · cases heq
      exact .inr (.inr ⟨rfl, rfl⟩)
    · exact .inl hq
  · exact .inr (.inl hdone)

end Poll

end Automaton

export Automaton (delivered_of_poll? mem_transitions_seeded poll?_eq_some)

end DemandAlias
