import DemandAlias.Proofs.Run.Updating
import DemandAlias.Proofs.Solver.Sending

/-!
# Tallies

How far a run has come is told by a *tally* (`Run.tally`), in this order:

* `facts`: what was found and is never lost again: transitions, nodes, requests,
  registrations, solvers and edges;
* `load`: how much the weights of the transitions can still change;
* `pending`: the nodes that wait to be processed;
* `stale`: the solvers that have not seen the latest edges of the call graph;
* `heavy`: the events that wait for rules that may add rules;
* `events`: all events that wait.

A change of a solver adds to the facts or takes from the load, or else leaves what comes
before the rules it adds as it is (`Solver.Weighed.keeps_make`). So does passing on a
message (`Run.Weighed.updates`). Serving a queue takes something away first
(`Run.Weighed.drops_serveSolver`).
-/

namespace DemandAlias

open Automaton (weight? weights_listen mention listens_listen addInitial)

/-- How far something has come. -/
structure Tally where
  facts : Nat
  load : Nat
  pending : Nat
  stale : Nat
  heavy : Nat
  events : Nat

namespace Tally

def zero : Tally := ⟨0, 0, 0, 0, 0, 0⟩

def add (a b : Tally) : Tally where
  facts := a.facts + b.facts
  load := a.load + b.load
  pending := a.pending + b.pending
  stale := a.stale + b.stale
  heavy := a.heavy + b.heavy
  events := a.events + b.events

def total : List Tally → Tally
  | [] => zero
  | a :: as => a.add (total as)

/-- Something was found, or a weight has changed. -/
def Gains (a b : Tally) : Prop := a.facts < b.facts ∨ a.facts = b.facts ∧ b.load < a.load

/-- Something was gained, or nothing has changed that counts at the level `k`: for `k = 0`
    events do not count, and for `k = 1` those of rules that add no rules do not. -/
def Keeps (k : Nat) (a b : Tally) : Prop :=
  a.Gains b ∨ a.facts = b.facts ∧ a.load = b.load ∧ a.pending = b.pending ∧
    a.stale = b.stale ∧ (1 ≤ k → a.heavy = b.heavy) ∧ (2 ≤ k → a.events = b.events)

/-- Nothing was gained, and of what counts at the level `k` something is gone. -/
def DropsAt (k : Nat) (a b : Tally) : Prop :=
  a.facts = b.facts ∧ a.load = b.load ∧ (b.pending < a.pending ∨ a.pending = b.pending ∧
    (b.stale < a.stale ∨ a.stale = b.stale ∧ 1 ≤ k ∧
      (b.heavy < a.heavy ∨ a.heavy = b.heavy ∧ 2 ≤ k ∧ b.events < a.events)))

/-- Something was gained, or something is gone. -/
def Drops (a b : Tally) : Prop := a.Gains b ∨ a.DropsAt 2 b

variable {k : Nat} {a a' b b' : Tally}

theorem Keeps.refl (k : Nat) (a : Tally) : Keeps k a a :=
  .inr ⟨rfl, rfl, rfl, rfl, fun _ => rfl, fun _ => rfl⟩

theorem Keeps.trans (h : a.Keeps k a') (h' : a'.Keeps k b) : a.Keeps k b := by
  unfold Keeps Gains at *
  omega

theorem Keeps.facts_le (h : a.Keeps k b) : a.facts ≤ b.facts := by
  unfold Keeps Gains at h
  omega

theorem Keeps.add (h : a.Keeps k a') (h' : b.Keeps k b') : (a.add b).Keeps k (a'.add b') := by
  unfold Keeps Gains at *
  simp only [Tally.add]
  omega

/-- What is gone at a level stays gone as long as that level is kept. -/
theorem DropsAt.trans_keeps (h : a.DropsAt k a') (h' : a'.Keeps k b) : a.Drops b := by
  unfold DropsAt at h
  unfold Keeps Gains at h'
  unfold Drops Gains DropsAt
  omega

theorem Drops.trans (h : a.Drops a') (h' : a'.Drops b) : a.Drops b := by
  unfold Drops Gains DropsAt at *
  omega

theorem DropsAt.add_left (h : a.DropsAt k a') (b : Tally) : (b.add a).DropsAt k (b.add a') := by
  unfold DropsAt at *
  simp only [Tally.add]
  omega

theorem DropsAt.add_right (h : a.DropsAt k a') (b : Tally) : (a.add b).DropsAt k (a'.add b) := by
  unfold DropsAt at *
  simp only [Tally.add]
  omega

/-- An event that is gone counts at the level after that of its rule. -/
theorem dropsAt_of_event {e : Nat} (he : e ≤ 1) (hfacts : a.facts = b.facts)
    (hload : a.load = b.load) (hpending : a.pending = b.pending) (hstale : a.stale = b.stale)
    (hheavy : a.heavy = b.heavy + if e == 0 then 1 else 0) (hevents : a.events = b.events + 1) :
    a.DropsAt (e + 1) b := by
  refine ⟨hfacts, hload, .inr ⟨hpending, .inr ⟨hstale, Nat.succ_pos e, ?_⟩⟩⟩
  by_cases hzero : e = 0
  · simp only [hzero, beq_self_eq_true, if_true] at hheavy
    omega
  · simp only [beq_iff_eq, hzero, if_false] at hheavy
    omega

end Tally

/-- The sum of the values of a function. -/
def sumOver {α : Type} (f : α → Nat) : List α → Nat
  | [] => 0
  | a :: as => f a + sumOver f as

section

variable {α : Type} {f g : α → Nat} {as : List α} (h : ∀ a ∈ as, f a ≤ g a)
include h

theorem sumOver_le : sumOver f as ≤ sumOver g as := by
  induction as with
  | nil => exact Nat.le_refl 0
  | cons a _ ih =>
    exact Nat.add_le_add (h a mem_cons_self) (ih fun b hb => h b (mem_cons_of_mem _ hb))

theorem sumOver_lt {a : α} (ha : a ∈ as) (hlt : f a < g a) : sumOver f as < sumOver g as := by
  induction as with
  | nil => cases ha
  | cons b as ih =>
    have hb := h b mem_cons_self
    have has : ∀ a ∈ as, f a ≤ g a := fun a ha => h a (mem_cons_of_mem _ ha)
    rcases mem_cons.1 ha with rfl | ha
    · exact Nat.add_lt_add_of_lt_of_le hlt (sumOver_le has)
    · exact Nat.add_lt_add_of_le_of_lt hb (ih has ha)

end

/-! ### Automata -/

theorem Queue.exists_pop?_of_waits {q : Queue α} (h : (!q.isEmpty) = true) :
    ∃ a q', q.pop? = some (a, q') := by
  have hsome : q.pop? ≠ none := by
    rw [Ne, pop?_eq_none_iff, ← isEmpty_iff]
    simpa [-isEmpty_iff] using h
  obtain ⟨⟨a, q'⟩, hpop⟩ := Option.ne_none_iff_exists'.1 hsome
  exact ⟨a, q', hpop⟩

namespace Automaton

variable {σ Λ ω κ : Type} [DecidableEq σ] [Hashable σ] [DecidableEq Λ] [Hashable Λ]

/-- How many events wait for listeners for which `p` holds. -/
def countEvents (p : κ → Bool) (a : Automaton σ Λ ω κ) : Nat :=
  a.events.toList.countP fun e => p e.1

/-- The sum of the values of a function at the weights. -/
def load [Weight ω] (rank : ω → Nat) (a : Automaton σ Λ ω κ) : Nat :=
  sumOver (fun t => rank (a.weight t)) a.transitions

/-- A listener is only told of what is there. -/
theorem countEvents_listen (p : κ → Bool) (a : Automaton σ Λ ω κ) (topic : Topic σ Λ) {k : κ}
    (hk : p k = false) : (a.listen topic k).countEvents p = a.countEvents p := by
  have hevents : (a.listen topic k).events =
      a.events.pushAll ((a.transitionsOf topic).map fun t => (k, t)) := by
    cases topic <;> rfl
  rw [countEvents, hevents, Queue.toList_pushAll, List.countP_append, countEvents]
  simp [List.countP_map, Function.comp_def, hk]

theorem load_listen [Weight ω] (rank : ω → Nat) (a : Automaton σ Λ ω κ) (topic : Topic σ Λ)
    (k : κ) : (a.listen topic k).load rank = a.load rank := by
  cases topic <;> rfl

/-- If events wait, one can be taken, which then waits no more. -/
theorem exists_poll? [Weight ω] {a : Automaton σ Λ ω κ} (h : a.hasEvents = true) :
    ∃ d events, a.poll? = some (d, { a with events }) ∧ ∀ p, a.countEvents p =
      countEvents p { a with events } + if p d.listener then 1 else 0 := by
  obtain ⟨⟨k, t⟩, events, hpop⟩ := Queue.exists_pop?_of_waits h
  refine ⟨_, _, by rw [poll?, hpop], fun p => ?_⟩
  rw [countEvents, Queue.toList_of_pop?_eq_some hpop, List.countP_cons]
  rfl

variable [Weight ω] [DecidableEq ω]

/-- Adding a transition changes nothing, or the weight of one that is there, or adds a new one. -/
theorem weights_add_cases (a : Automaton σ Λ ω κ) (t : Transition σ Λ) (w : ω) :
    a.add t w = a ∨
    (∃ old, a.weight? t = some old ∧ combine old w ≠ old ∧
      (a.add t w).weights = a.weights.insert t (combine old w) ∧
      (a.add t w).transitions = a.transitions) ∨
    (a.weight? t = none ∧ (a.add t w).weights = a.weights.insert t w ∧
      ∀ u, u ∈ (a.add t w).transitions ↔ u ∈ a.transitions ∨ u = t) := by
  unfold add
  split
  · exact .inl rfl
  · split
    · next old hold =>
      dsimp only
      split
      · exact .inl rfl
      · next hne => exact .inr (.inl ⟨old, hold, hne, rfl, rfl⟩)
    · next hnone =>
      refine .inr (.inr ⟨hnone, rfl, fun u => ?_⟩)
      refine (mem_get_foldl_file t.topics t a.stored .all u).trans ?_
      exact or_congr_right (and_iff_left t.all_mem_topics)

end Automaton

/-! ### Solvers -/

/-- The weights for which `P` holds settle: combining one with another changes it only
    finitely often. -/
structure Settles {ω : Type} [Weight ω] (P : ω → Prop) (rank : ω → Nat) : Prop where
  one : P Weight.one
  combine : ∀ {a b}, P a → P b → P (Weight.combine a b)
  descends : ∀ {a b}, P a → P b → Weight.combine a b ≠ a → rank (Weight.combine a b) < rank a

/-- The weight that the change brings in is one of those for which `P` holds. -/
def Change.Weighs {ω : Type} (P : ω → Prop) : Change ω → Prop
  | .call _ w => P w
  | .callRule _ (.popMatch _ w) => P w
  | _ => True

theorem Change.Unweighted.weighs {ω : Type} {P : ω → Prop} {x : Change ω} (h : x.Unweighted) :
    x.Weighs P := by
  cases x with
  | call => exact h.elim
  | callRule _ rule => cases rule <;> trivial
  | _ => trivial

theorem Change.Neutral.weighs {ω : Type} [Weight ω] {P : ω → Prop} {rank : ω → Nat}
    (hP : Settles P rank) {x : Change ω} (h : x.Neutral) : x.Weighs P := by
  cases x with
  | call t w =>
    obtain rfl : w = one := h
    exact hP.one
  | callRule topic rule =>
    have hx : (Change.callRule topic rule).Unweighted := h
    exact hx.weighs
  | _ => trivial

namespace Solver

open Std

variable {ω : Type} {P : ω → Prop} {rank : ω → Nat} {s : Solver ω} {k size : Nat}
variable {c : Setting ω} {g : CallGraph}

theorem size_insert_of_not_contains {α : Type} [BEq α] [Hashable α] [EquivBEq α]
    [LawfulHashable α] {m : HashSet α} {a : α} (h : ¬m.contains a = true) :
    (m.insert a).size = m.size + 1 := by
  rw [HashSet.size_insert, if_neg fun hmem => h (HashSet.contains_iff_mem.2 hmem)]

/-- Finding something gains, whatever else changes. -/
theorem keeps_of_lt {a b : Tally} (h : a.facts < b.facts) : a.Keeps k b := .inl (.inl h)

/-- The weights of the solver are those of its transitions, and among those for which `P`
    holds; fields have none. -/
structure Weighed (P : ω → Prop) (s : Solver ω) : Prop where
  calls : ∀ {t w}, s.calls.weight? t = some w → P w ∧ t ∈ s.calls.transitions
  fields : ∀ {t w}, s.fields.weight? t = some w → w = .one
  popMatch : ∀ {topic target w}, s.calls.Listens topic (.popMatch target w) → P w

theorem Weighed.reach (h : s.Weighed P) (n : Node) : (s.reach n).Weighed P := by
  obtain ⟨reached, pending, heq, -⟩ := reach_eq s n
  rw [heq]
  exact { h with }

theorem Weighed.onCalls (h : s.Weighed P) {topic : Topic State Statement} {rule : CallRule ω}
    (hrule : ∀ target w, rule = .popMatch target w → P w) : (s.onCalls topic rule).Weighed P where
  calls {t w} ht := by
    simp only [Solver.onCalls, Automaton.transitions_listen]
    rw [Solver.onCalls, weight?, weights_listen] at ht
    exact h.calls ht
  fields := h.fields
  popMatch hk := ((listens_listen ..).1 hk).elim h.popMatch fun hk => hrule _ _ hk.2.symm

theorem Weighed.onFields (h : s.Weighed P) {topic : Topic State Field} {rule : FieldRule} :
    (s.onFields topic rule).Weighed P where
  calls := h.calls
  fields {t w} ht := by
    rw [Solver.onFields, weight?, weights_listen] at ht
    exact h.fields ht
  popMatch := h.popMatch

theorem Weighed.addField (h : s.Weighed P) (t : FieldTransition) : (s.addField t).Weighed P where
  calls := h.calls
  fields {u v} hu := by
    rcases s.fields.weights_add_cases t .one with
      heq | ⟨old, hold, hne, -⟩ | ⟨-, hweights, -⟩
    · rw [Solver.addField, heq] at hu
      exact h.fields hu
    · rw [h.fields hold] at hne
      exact absurd rfl hne
    · rw [Solver.addField, weight?, hweights, HashMap.getElem?_insert] at hu
      split at hu
      · cases hu
        rfl
      · exact h.fields hu
  popMatch := h.popMatch

variable [Weight ω]

/-- How far a solver has come, if the call graph has so many edges. -/
def tally (rank : ω → Nat) (size : Nat) (s : Solver ω) : Tally where
  facts := s.calls.weights.size + s.fields.weights.size + s.callReached.size +
    s.fieldReached.size + s.callRequests.size + s.fieldRequests.size + s.unwinding.size
  load := s.calls.load rank
  pending := s.pending.toList.length
  stale := if s.edgesSeen = size then 0 else 1
  heavy := s.calls.countEvents (fun rule => rule.ease == 0) +
    s.fields.countEvents fun rule => rule.ease == 0
  events := s.calls.countEvents (fun _ => true) + s.fields.countEvents fun _ => true

theorem Weighed.weight (h : s.Weighed P) (hs : s.calls.Consistent) {t : CallTransition}
    (ht : t ∈ s.calls.transitions) : P (s.calls.weight t) :=
  (h.calls (hs.weight?_eq_weight ht)).1

theorem keeps_onCalls (s : Solver ω) (topic : Topic State Statement) {rule : CallRule ω}
    (hk : k ≤ rule.ease) :
    (s.tally rank size).Keeps k ((s.onCalls topic rule).tally rank size) := by
  refine .inr ⟨?_, ?_, rfl, rfl, fun hlevel => ?_, fun hlevel => ?_⟩
  · simp only [tally, Solver.onCalls, weights_listen]
  · simp only [tally, Solver.onCalls, Automaton.load_listen]
  · simp only [tally, Solver.onCalls]
    rw [Automaton.countEvents_listen]
    have hease : rule.ease ≠ 0 := by omega
    simpa using hease
  · have hease := rule.ease_le_one
    omega

theorem keeps_onFields (s : Solver ω) (topic : Topic State Field) {rule : FieldRule}
    (hk : k ≤ rule.ease) :
    (s.tally rank size).Keeps k ((s.onFields topic rule).tally rank size) := by
  refine .inr ⟨?_, rfl, rfl, rfl, fun hlevel => ?_, fun hlevel => ?_⟩
  · simp only [tally, Solver.onFields, weights_listen]
  · simp only [tally, Solver.onFields]
    rw [Automaton.countEvents_listen]
    have hease : rule.ease ≠ 0 := by omega
    simpa using hease
  · have hease := rule.ease_le_one
    omega

theorem Weighed.keeps_addField (h : s.Weighed P) (t : FieldTransition) :
    (s.tally rank size).Keeps k ((s.addField t).tally rank size) := by
  rcases s.fields.weights_add_cases t .one with
    heq | ⟨old, hold, hne, -⟩ | ⟨hnone, hweights, -⟩
  · rw [Solver.addField, heq]
    exact .refl k _
  · rw [h.fields hold] at hne
    exact absurd rfl hne
  · have hmem : t ∉ s.fields.weights := (getElem?_eq_none_iff _ t).1 hnone
    refine keeps_of_lt ?_
    simp only [tally, Solver.addField, hweights, HashMap.size_insert, if_neg hmem]
    omega

theorem facts_reach (s : Solver ω) (n : Node) :
    ((s.reach n).tally rank size).facts = (s.tally rank size).facts := by
  obtain ⟨reached, pending, heq, -⟩ := reach_eq s n
  rw [heq]
  rfl

variable [DecidableEq ω]

section

variable (hP : Settles P rank) (h : s.Weighed P)
include hP h

/-- Adding a transition adds to the facts, or takes from the load, or changes nothing. -/
theorem Weighed.keeps_addCall (t : CallTransition) {w : ω} (hw : P w) :
    (s.tally rank size).Keeps k ((s.addCall t w).tally rank size) := by
  rcases s.calls.weights_add_cases t w with
    heq | ⟨old, hold, hne, hweights, htransitions⟩ | ⟨hnone, hweights, -⟩
  · rw [addCall, heq]
    exact .refl k _
  · have hmem : t ∈ s.calls.weights := (HashMap.getElem?_eq_some_iff.1 hold).1
    obtain ⟨hPold, ht⟩ := h.calls hold
    have hrank := hP.descends hPold hw hne
    refine .inl (.inr ⟨?_, ?_⟩)
    · simp [tally, addCall, hweights, HashMap.size_insert, hmem]
    · -- Only the weight of `t` is another one.
      have hweight : ∀ u, (s.calls.add t w).weight u =
          if t = u then combine old w else s.calls.weight u := fun u => by
        simp only [Automaton.weight, weight?, hweights, HashMap.getElem?_insert, beq_iff_eq]
        split <;> rfl
      have hold' : s.calls.weight t = old := by rw [Automaton.weight, hold, getD_some]
      simp only [tally, addCall, Automaton.load, htransitions]
      refine sumOver_lt (fun u _ => ?_) ht ?_
      · rw [hweight]
        split
        · next heq =>
          subst heq
          rw [hold']
          exact Nat.le_of_lt hrank
        · exact Nat.le_refl _
      · rw [hweight, if_pos rfl, hold']
        exact hrank
  · have hmem : t ∉ s.calls.weights := (getElem?_eq_none_iff _ t).1 hnone
    refine keeps_of_lt ?_
    simp only [tally, addCall, hweights, HashMap.size_insert, if_neg hmem]
    omega

/-- A change of a solver gains something, or keeps all that counts at its level. -/
theorem Weighed.keeps_make {x : Change ω} (hx : x.Weighs P) (hk : x.Mild k) :
    (s.tally rank size).Keeps k ((s.make x).tally rank size) := by
  cases x with
  | call t => exact h.keeps_addCall hP t hx
  | field t => exact h.keeps_addField t
  | callRule topic => exact keeps_onCalls s topic hk
  | fieldRule topic => exact keeps_onFields s topic hk
  | message => exact .refl k _
  -- What was not there before counts as a fact, so these gain something.
  | reachByCalls | reachByFields =>
    simp only [make, reachByCalls, reachByFields]
    split
    · exact .refl k _
    · next hn =>
      refine keeps_of_lt ?_
      rw [facts_reach]
      simp only [tally, size_insert_of_not_contains hn, addInitial, mention]
      omega
  | callRequest | fieldRequest | unwind =>
    simp only [make, requestCalls, requestFields, Solver.unwind]
    split
    · exact .refl k _
    · next hnew =>
      refine keeps_of_lt ?_
      simp only [tally, Solver.onCalls, Solver.onFields, weights_listen,
        size_insert_of_not_contains hnew]
      omega

/-! ### Weights stay among those that settle -/

theorem Weighed.addCall (t : CallTransition) {w : ω} (hw : P w) : (s.addCall t w).Weighed P where
  calls {u v} hu := by
    rcases s.calls.weights_add_cases t w with
      heq | ⟨old, hold, -, hweights, htransitions⟩ | ⟨-, hweights, htransitions⟩
    · rw [Solver.addCall, heq] at hu ⊢
      exact h.calls hu
    · simp only [Solver.addCall, htransitions]
      rw [Solver.addCall, weight?, hweights, HashMap.getElem?_insert] at hu
      split at hu
      · next heq =>
        cases hu
        obtain ⟨hPold, ht⟩ := h.calls hold
        exact ⟨hP.combine hPold hw, eq_of_beq heq ▸ ht⟩
      · exact h.calls hu
    · simp only [Solver.addCall, htransitions]
      rw [Solver.addCall, weight?, hweights, HashMap.getElem?_insert] at hu
      split at hu
      · next heq =>
        cases hu
        exact ⟨hw, .inr (eq_of_beq heq).symm⟩
      · exact (h.calls hu).imp_right .inl
  fields := h.fields
  popMatch hk := h.popMatch ((Automaton.listens_add ..).1 hk)

theorem Weighed.make {x : Change ω} (hx : x.Weighs P) : (s.make x).Weighed P := by
  cases x with
  | call t => exact h.addCall hP t hx
  | field t => exact h.addField t
  | callRule =>
    refine h.onCalls fun target w hrule => ?_
    subst hrule
    exact hx
  | fieldRule => exact h.onFields
  | message => exact { h with }
  | reachByCalls n | reachByFields n =>
    simp only [Solver.make, reachByCalls, reachByFields]
    split
    · exact h
    · refine Weighed.reach ?_ n
      exact { h with }
  | fieldRequest =>
    simp only [Solver.make, requestFields]
    split
    · exact h
    · refine Weighed.onFields ?_
      exact { h with }
  | callRequest | unwind =>
    simp only [Solver.make, requestCalls, Solver.unwind]
    split
    · exact h
    · refine Weighed.onCalls ?_ fun _ _ heq => by cases heq
      exact { h with }

end

/-- Many changes gain something, or keep all that counts at their level. -/
theorem Weighed.makes {A : Change ω → Prop} (hP : Settles P rank)
    (hA : ∀ x, A x → x.Weighs P ∧ x.Mild k) (h : s.Weighed P) {s' : Solver ω}
    (hm : Makes A s s') (size : Nat) :
    s'.Weighed P ∧ (s.tally rank size).Keeps k (s'.tally rank size) := by
  induction hm with
  | refl => exact ⟨h, .refl k _⟩
  | make _ hx ih =>
    obtain ⟨hw, hk⟩ := ih
    obtain ⟨hweighs, hmild⟩ := hA _ hx
    exact ⟨hw.make hP hweighs, hk.trans (hw.keeps_make hP hweighs hmild)⟩
  | note _ _ _ ih => exact ⟨{ ih.1 with }, ih.2⟩

theorem weighed_start (hP : Settles P rank) (id : SolverId) (direction : Direction) (seed : Node) :
    (start id direction seed).Weighed P := by
  -- It has its first transitions added to nothing.
  have hblank : Weighed P
      ({ id, direction, seed
         calls := (Automaton.empty.addFinal (.bottom seed)).listen .all .reach
         fields := (Automaton.empty.addFinal (.bottom seed)).listen .all .reach } : Solver ω) := by
    refine ⟨fun {t w} ht => ?_, fun {t w} ht => ?_, fun {topic target w} hk => ?_⟩
    · have hnone : (∅ : HashMap CallTransition ω)[t]? = some w := ht
      simp at hnone
    · have hnone : (∅ : HashMap FieldTransition Reach)[t]? = some w := ht
      simp at hnone
    · rcases (listens_listen ..).1 hk with hk | ⟨-, hk⟩
      · simp [Automaton.Listens, Automaton.addFinal, mention, Automaton.empty] at hk
      · cases hk
  exact (hblank.addCall hP (callAt seed (.bottom seed)) hP.one).addField
    (fieldAt seed .epsilon (.bottom seed))

/-! ### Serving a queue -/

/-- What serving a queue does: it takes something away, and then makes changes that keep
    all that counts where something is gone. -/
structure Serves (P : ω → Prop) (rank : ω → Nat) (size k : Nat) (s s₀ s' : Solver ω) : Prop where
  drops : (s.tally rank size).DropsAt k (s₀.tally rank size)
  keeps : (s₀.tally rank size).Keeps k (s'.tally rank size)
  weighed : s'.Weighed P
  messages : ∀ m ∈ s'.outbox, k ≤ m.ease + 1

theorem Weighed.serves_makeAll (hP : Settles P rank) {s₀ : Solver ω} (h : s₀.Weighed P)
    (hdrops : (s.tally rank size).DropsAt k (s₀.tally rank size)) (hquiet : s₀.outbox = [])
    {xs : List (Change ω)} (hxs : ∀ x ∈ xs, x.Weighs P ∧ x.Mild k) :
    Serves P rank size k s s₀ (s₀.makeAll xs) := by
  obtain ⟨hweighed, hkeeps⟩ := h.makes hP (fun x hx => hx) (makes_makeAll s₀ hxs) size
  refine ⟨hdrops, hkeeps, hweighed, fun m hm => ?_⟩
  rcases mem_outbox_makeAll hm with hm | hm
  · rw [hquiet] at hm
    cases hm
  · exact (hxs _ hm).2

section

variable (hP : Settles P rank) (size : Nat) (h : s.Weighed P)
include hP h

theorem Weighed.serves_calls (hquiet : s.outbox = []) (hwork : s.hasWork .calls = true)
    (hrule : ∀ d calls, s.calls.poll? = some (d, calls) →
      ∀ x ∈ d.listener.changes c s.bottom d.transition d.weight, x.Weighs P) :
    ∃ k s₀, Serves P rank size k s s₀ (s.serve c g .calls) := by
  obtain ⟨d, events, hpoll, hcount⟩ := Automaton.exists_poll? hwork
  simp only [serve, hpoll, applyCallRule_eq]
  have hw : Weighed P { s with calls := { s.calls with events } } := { h with }
  have hdrops : (s.tally rank size).DropsAt (d.listener.ease + 1)
      (tally rank size { s with calls := { s.calls with events } }) := by
    refine Tally.dropsAt_of_event d.listener.ease_le_one rfl rfl rfl rfl ?_ ?_
    · simp only [tally, hcount]
      omega
    · simp only [tally, hcount, if_true]
      omega
  exact ⟨_, _, hw.serves_makeAll hP hdrops hquiet fun x hx =>
    ⟨hrule d _ hpoll x hx, CallRule.mild_changes c _ d.listener _ _ x hx⟩⟩

theorem Weighed.serves_fields (hquiet : s.outbox = []) (hwork : s.hasWork .fields = true) :
    ∃ k s₀, Serves P rank size k s s₀ (s.serve c g .fields) := by
  obtain ⟨d, events, hpoll, hcount⟩ := Automaton.exists_poll? hwork
  simp only [serve, hpoll, applyFieldRule_eq]
  have hw : Weighed P { s with fields := { s.fields with events } } := { h with }
  have hdrops : (s.tally rank size).DropsAt (d.listener.ease + 1)
      (tally rank size { s with fields := { s.fields with events } }) := by
    refine Tally.dropsAt_of_event d.listener.ease_le_one rfl rfl rfl rfl ?_ ?_
    · simp only [tally, hcount]
      omega
    · simp only [tally, hcount, if_true]
      omega
  exact ⟨_, _, hw.serves_makeAll hP hdrops hquiet fun x hx =>
    (FieldRule.mild_changes d.listener _ x hx).symm.imp_left (·.weighs)⟩

theorem Weighed.serves_nodes (hwork : s.hasWork .nodes = true) :
    ∃ k s₀, Serves P rank size k s s₀ (s.serve c g .nodes) := by
  obtain ⟨n, pending, hpop⟩ := Queue.exists_pop?_of_waits hwork
  simp only [serve, hpop]
  have hw : Weighed P { s with pending } := { h with }
  obtain ⟨hweighed, hkeeps⟩ := hw.makes (k := 0) hP
    (fun x hx => ⟨hx.weighs, x.mild_zero⟩) (makes_process c g { s with pending } n) size
  refine ⟨0, { s with pending }, ⟨rfl, rfl, .inl ?_⟩, hkeeps, hweighed, fun m _ => Nat.zero_le _⟩
  simp [tally, Queue.toList_of_pop?_eq_some hpop]

/-- Serving a queue in which something waits takes something away first. -/
theorem Weighed.serves (hquiet : s.outbox = [])
    (hrule : ∀ d calls, s.calls.poll? = some (d, calls) →
      ∀ x ∈ d.listener.changes c s.bottom d.transition d.weight, x.Weighs P)
    {queue : WorkQueue} (hwork : s.hasWork queue = true) :
    ∃ k s₀, Serves P rank size k s s₀ (s.serveQueue c g queue) := by
  have hlast : Weighed P { s with last := queue } := { h with }
  have hserves : ∃ k s₀, Serves P rank size k { s with last := queue } s₀
      (s.serveQueue c g queue) := by
    cases queue with
    | calls => exact hlast.serves_calls hP size hquiet hwork hrule
    | fields => exact hlast.serves_fields hP size hquiet hwork
    | nodes => exact hlast.serves_nodes hP size hwork
  obtain ⟨k, s₀, hs⟩ := hserves
  exact ⟨k, s₀, { hs with }⟩

end

/-- Catching up with the call graph leaves all as it is, or there is one solver less that has to. -/
theorem Weighed.refresh (hP : Settles P rank) (c : Setting ω) (g : CallGraph) (h : s.Weighed P) :
    (s.refresh c g).Weighed P ∧ (s.refresh c g = s ∨
      ∃ s₀ : Solver ω, (s.tally rank g.size).DropsAt 0 (s₀.tally rank g.size) ∧
        (s₀.tally rank g.size).Keeps 0 ((s.refresh c g).tally rank g.size)) := by
  rcases makes_refresh c g s with ⟨-, heq⟩ | ⟨hseen, hmakes⟩
  · rw [heq]
    exact ⟨h, .inl rfl⟩
  · have hw : Weighed P { s with edgesSeen := g.size } := { h with }
    obtain ⟨hweighed, hkeeps⟩ := hw.makes (k := 0) hP
      (fun x hx => ⟨hx.weighs, x.mild_zero⟩) hmakes g.size
    refine ⟨hweighed, .inr ⟨{ s with edgesSeen := g.size }, ⟨rfl, rfl, .inr ⟨rfl, .inl ?_⟩⟩, hkeeps⟩⟩
    simp [tally, hseen]

end Solver

end DemandAlias
