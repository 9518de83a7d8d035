import DemandAlias.Proofs.Automaton.Listening

/-!
# Nobody misses a weight

Adding a transition again may change its weight, and then all its listeners are told once
more. So a listener to whom no event is queued was told of a transition at the weight it has
now (`Current`), and not only at some weight.

A weight only ever changes by being combined with others, so it includes all that it was
combined from (`Weight.Includes`).
-/

namespace DemandAlias

open Std

/-! ### Weights that include others -/

namespace Weight

variable {ω ε : Type} [Weight ω]

/-- The weight comes from the other one by combining it with any others. -/
inductive Includes : ω → ω → Prop
  | refl (a : ω) : Includes a a
  | left {a b : ω} (c : ω) (h : Includes a b) : Includes (combine a c) b
  | right {a b : ω} (c : ω) (h : Includes a b) : Includes (combine c a) b

theorem Includes.trans {a b c : ω} (h : Includes a b) (h' : Includes b c) : Includes a c := by
  induction h with
  | refl => exact h'
  | left d _ ih => exact (ih h').left d
  | right d _ ih => exact (ih h').right d

/-- What a weight takes into account, all that include it do. -/
theorem Includes.accounts {accounts : ω → List ε → Prop} (ha : Accounting accounts) {a b : ω}
    (h : Includes a b) {es : List ε} (hb : accounts b es) : accounts a es := by
  induction h with
  | refl => exact hb
  | left c _ ih => exact ha.left c (ih hb)
  | right c _ ih => exact ha.right c (ih hb)

end Weight

namespace Automaton

variable {σ Λ ω κ : Type} [DecidableEq σ] [Hashable σ] [DecidableEq Λ] [Hashable Λ] {w : ω}

@[simp] theorem weight?_listen (a : Automaton σ Λ ω κ) (topic : Topic σ Λ) (k : κ) (t : Transition σ Λ) :
    (a.listen topic k).weight? t = a.weight? t := by
  rw [weight?, weights_listen, weight?]

/-! ### Weights only grow -/

section Weights

variable [Weight ω] [DecidableEq ω]

/-- Adding a transition changes at most its own weight. -/
theorem weight?_add_of_ne (a : Automaton σ Λ ω κ) {t u : Transition σ Λ} (w : ω) (h : u ≠ t) :
    (a.add t w).weight? u = a.weight? u := by
  rcases add_cases a t w with ⟨heq, -⟩ | ⟨old, -, heq⟩ | ⟨-, -, states, -, heq⟩
  · rw [heq]
  · rw [heq]
    exact HashMap.getElem?_insert.trans (if_neg fun hbeq => h (eq_of_beq hbeq).symm)
  · rw [heq]
    exact HashMap.getElem?_insert.trans (if_neg fun hbeq => h (eq_of_beq hbeq).symm)

/-- The weight of the transition added is what it was, or what is added, or both combined. -/
theorem weight?_add_self (a : Automaton σ Λ ω κ) (t : Transition σ Λ) (hw : w ≠ zero) :
    (a.add t w).weight? t =
      some (match a.weight? t with
        | some old => combine old w
        | none => w) := by
  unfold add
  rw [if_neg hw]
  cases hold : a.weight? t with
  | some =>
    dsimp only
    split
    · next hsame => rw [hold, hsame]
    · exact HashMap.getElem?_insert_self
  | none => exact HashMap.getElem?_insert_self

theorem add_zero (a : Automaton σ Λ ω κ) (t : Transition σ Λ) : a.add t zero = a := if_pos rfl

theorem eq_of_weight?_seeded {final : σ} {k : κ} {t u : Transition σ Λ} {v : ω}
    (h : (seeded final k t w).weight? u = some v) : u = t ∧ v = w := by
  have hnone : ∀ u, (((empty : Automaton σ Λ ω κ).addFinal final).listen .all k).weight? u = none :=
    fun u => by simp [weight?, weights_listen, addFinal, mention, empty]
  rw [seeded] at h
  by_cases hw : w = zero
  · rw [hw, add_zero, hnone] at h
    cases h
  · by_cases hu : u = t
    · subst hu
      rw [weight?_add_self _ _ hw, hnone] at h
      exact ⟨rfl, (some.inj h).symm⟩
    · rw [weight?_add_of_ne _ _ hu, hnone] at h
      cases h

/-- What is added is included. -/
theorem exists_weight?_add (a : Automaton σ Λ ω κ) (t : Transition σ Λ) (hw : w ≠ zero) :
    ∃ v, (a.add t w).weight? t = some v ∧ Weight.Includes v w := by
  rw [weight?_add_self a t hw]
  cases a.weight? t with
  | some old => exact ⟨_, rfl, .right old (.refl w)⟩
  | none => exact ⟨w, rfl, .refl w⟩

/-- What a transition weighed before, its weight still includes. -/
theorem exists_includes_add {a : Automaton σ Λ ω κ} {u : Transition σ Λ} {v : ω}
    (hu : a.weight? u = some v) (t : Transition σ Λ) (w : ω) :
    ∃ v', (a.add t w).weight? u = some v' ∧ Weight.Includes v' v := by
  by_cases hw : w = zero
  · rw [hw, add_zero]
    exact ⟨v, hu, .refl v⟩
  · by_cases heq : u = t
    · subst heq
      rw [weight?_add_self a u hw, hu]
      exact ⟨_, rfl, .left w (.refl v)⟩
    · exact ⟨v, (weight?_add_of_ne a w heq).trans hu, .refl v⟩

end Weights

/-! ### Being told of the latest weight -/

/-- Every listener was told of every transition of its topic at the weight it has now, which
    `done` says, or is about to be. -/
def Current (a : Automaton σ Λ ω κ) (done : κ → Transition σ Λ → ω → Prop) : Prop :=
  ∀ topic k t w, a.Listens topic k → a.weight? t = some w → topic ∈ t.topics →
    a.Queued k t ∨ done k t w

variable {a : Automaton σ Λ ω κ} {done done' : κ → Transition σ Λ → ω → Prop}

theorem Current.mono (h : a.Current done) (hd : ∀ k t w, done k t w → done' k t w) :
    a.Current done' :=
  fun topic k t w hk hw htopic => (h topic k t w hk hw htopic).imp_right (hd k t w)

/-- If no event is queued, all listeners know all transitions with their weights. -/
theorem Current.done_of_idle (h : a.Current done) (hidle : a.hasEvents = false)
    {topic : Topic σ Λ} {k : κ} {t : Transition σ Λ} (hk : a.Listens topic k)
    (hw : a.weight? t = some w) (htopic : topic ∈ t.topics) : done k t w :=
  (h topic k t w hk hw htopic).resolve_left (not_queued_of_idle hidle)

theorem current_add [Weight ω] [DecidableEq ω] (h : a.Current done) (t : Transition σ Λ) (w : ω) :
    (a.add t w).Current done := by
  intro topic k u v hk hv htopic
  rw [listens_add] at hk
  by_cases heq : u = t
  · -- Either the weight is the old one, or the transition was announced.
    subst heq
    rcases add_cases a u w with ⟨ha, -⟩ | ⟨old, -, ha⟩ | ⟨-, -, states, -, ha⟩
    · rw [ha] at hv ⊢
      exact h topic k u v hk hv htopic
    · rw [ha]
      exact .inl ((queued_announce ..).2 (.inr ⟨rfl, topic, htopic, hk⟩))
    · rw [ha]
      exact .inl ((queued_announce ..).2 (.inr ⟨rfl, topic, htopic, hk⟩))
  · rw [weight?_add_of_ne a w heq] at hv
    exact (h topic k u v hk hv htopic).imp_left fun hq => hq.add t w

theorem current_listen (h : a.Current done) {topic : Topic σ Λ}
    (hstored : ∀ t, topic ∈ t.topics ∧ (a.weight? t).isSome = true → t ∈ a.transitionsOf topic)
    (k : κ) : (a.listen topic k).Current done := by
  intro topic' k' t w hk' hw htopic'
  rw [weight?_listen] at hw
  rcases (listens_listen a topic topic' k k').1 hk' with hk' | ⟨rfl, rfl⟩
  · exact (h topic' k' t w hk' hw htopic').imp_left fun hq => (queued_listen ..).2 (.inl hq)
  · exact .inl ((queued_listen ..).2 (.inr ⟨rfl, hstored t ⟨htopic', by rw [hw]; rfl⟩⟩))

theorem current_seeded [Weight ω] [DecidableEq ω] (final : σ) (k : κ) (t : Transition σ Λ) (w : ω) :
    (seeded final k t w).Current done := by
  have hc : ((empty : Automaton σ Λ ω κ).addFinal final).Consistent :=
    consistent_addFinal consistent_empty final
  refine current_add (current_listen ?_ (fun t => (hc.stored .all t).2) k) t w
  intro _ _ _ _ _ hw
  simp [weight?, addFinal, mention, empty] at hw

/-- After a delivery only the event delivered remains to be dealt with. -/
theorem current_of_poll? [Weight ω] (h : a.Current done) {d : Delivery σ Λ ω κ}
    {a' : Automaton σ Λ ω κ} (hp : a.poll? = some (d, a')) :
    a'.Current fun k t w => done k t w ∨ k = d.listener ∧ t = d.transition ∧ w = d.weight := by
  obtain ⟨events, rfl, hevents, hweight⟩ := poll?_eq_some hp
  intro topic k t w hk hw htopic
  rcases h topic k t w hk hw htopic with hq | hdone
  · rw [Queued, hevents, mem_cons] at hq
    rcases hq with heq | hq
    · cases heq
      refine .inr (.inr ⟨rfl, rfl, ?_⟩)
      rw [hweight, weight, show a.weight? d.transition = some w from hw]
      rfl
    · exact .inl hq
  · exact .inr (.inl hdone)

end Automaton

end DemandAlias
