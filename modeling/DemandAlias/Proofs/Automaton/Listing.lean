import DemandAlias.Automaton.Basic
import DemandAlias.Proofs.Data.Listing

/-!
# Automata written out

What an automaton tells its listeners depends on what is in its containers, not on how
they keep it. A *listing* has the contents as plain lists, and its operations are those
of the automaton (`ListedBy`). So what an automaton does with given transitions can be
found by evaluating its listing.
-/

namespace DemandAlias

open Std

namespace Automaton

/-- The contents of an automaton that decide what it tells its listeners. -/
structure Listing (σ Λ ω κ : Type) where
  /-- The transitions, in the order of their arrival. -/
  transitions : List (Transition σ Λ) := []
  /-- Their weights, the latest one first. -/
  weights : List (Transition σ Λ × ω) := []
  listeners : List (Topic σ Λ × κ) := []
  events : List (κ × Transition σ Λ) := []

variable {σ Λ ω κ : Type} [DecidableEq σ] [DecidableEq Λ]

namespace Listing

def weight? (l : Listing σ Λ ω κ) (t : Transition σ Λ) : Option ω := valueOf? l.weights t

def transitionsOf (l : Listing σ Λ ω κ) (topic : Topic σ Λ) : List (Transition σ Λ) :=
  l.transitions.filter fun t => topic ∈ t.topics

def announce (l : Listing σ Λ ω κ) (t : Transition σ Λ) : Listing σ Λ ω κ :=
  let told := t.topics.flatMap fun topic => (valuesOf l.listeners topic).map fun k => (k, t)
  { l with events := l.events ++ told }

def add [Weight ω] [DecidableEq ω] (l : Listing σ Λ ω κ) (t : Transition σ Λ) (w : ω) :
    Listing σ Λ ω κ :=
  if w = zero then l
  else match l.weight? t with
    | some old =>
      let new := combine old w
      if new = old then l else { l with weights := (t, new) :: l.weights }.announce t
    | none =>
      { l with transitions := l.transitions ++ [t], weights := (t, w) :: l.weights }.announce t

def listen (l : Listing σ Λ ω κ) (topic : Topic σ Λ) (k : κ) : Listing σ Λ ω κ :=
  { l with
    listeners := l.listeners ++ [(topic, k)]
    events := l.events ++ (l.transitionsOf topic).map fun t => (k, t) }

end Listing

variable [Hashable σ] [Hashable Λ]

/-- The listing has the contents of the automaton. -/
structure ListedBy (a : Automaton σ Λ ω κ) (l : Listing σ Λ ω κ) : Prop where
  weight : ∀ t, a.weight? t = l.weight? t
  stored : ∀ topic, a.transitionsOf topic = l.transitionsOf topic
  listeners : ∀ topic, a.listeners.get topic = valuesOf l.listeners topic
  events : a.events.toList = l.events

variable {a : Automaton σ Λ ω κ} {l : Listing σ Λ ω κ}

theorem listedBy_empty : (empty : Automaton σ Λ ω κ).ListedBy {} where
  weight t := by simp [weight?, empty, Listing.weight?, valueOf?]
  stored topic := by simp [transitionsOf, empty, Listing.transitionsOf]
  listeners topic := by simp [empty, valuesOf]
  events := rfl

namespace ListedBy

variable (h : a.ListedBy l)
include h

/-- Which states were mentioned does not matter. -/
theorem states (states initial final : OrderedSet σ) :
    ListedBy { a with states, initial, final } l := { h with }

theorem announce (t : Transition σ Λ) : (a.announce t).ListedBy (l.announce t) :=
  { h with events := by simp [Automaton.announce, Listing.announce, h.events, h.listeners] }

/-- A new transition goes to the end of each of its topics. -/
theorem get_foldl_file (t : Transition σ Λ) (topic : Topic σ Λ) :
    (t.topics.foldl (fun m topic => m.file topic t) a.stored).get topic =
      (l.transitions ++ [t]).filter fun t => topic ∈ t.topics := by
  have hold := h.stored topic
  rw [transitionsOf, Listing.transitionsOf] at hold
  rw [List.filter_append, ← hold]
  simp only [Transition.topics, foldl_cons, foldl_nil, get_file]
  cases topic <;> grind

theorem add [Weight ω] [DecidableEq ω] (t : Transition σ Λ) (w : ω) :
    (a.add t w).ListedBy (l.add t w) := by
  unfold Automaton.add Listing.add
  rw [h.weight]
  split
  · exact h
  · cases hweight : l.weight? t with
    | some =>
      dsimp only
      split
      · exact h
      · refine ListedBy.announce ?_ t
        exact { h with weight := fun u => getElem?_insert_eq h.weight t u _ }
    | none =>
      refine ListedBy.announce ?_ t
      exact { h with
        weight := fun u => getElem?_insert_eq h.weight t u w
        stored := h.get_foldl_file t }

theorem listen (topic : Topic σ Λ) (k : κ) : (a.listen topic k).ListedBy (l.listen topic k) := by
  have hmention : ∀ states, ListedBy { a with
      states
      listeners := a.listeners.file topic k
      events := a.events.pushAll ((a.transitionsOf topic).map fun t => (k, t)) }
      (l.listen topic k) := fun states =>
    { h with
      listeners := fun topic' => Multimap.get_file_eq h.listeners topic topic' k
      events := by simp [Listing.listen, h.events, h.stored] }
  unfold Automaton.listen
  cases topic <;> exact hmention _

/-- The next event is the first one listed. -/
theorem poll [Weight ω] {k : κ} {t : Transition σ Λ} {events : List (κ × Transition σ Λ)}
    (hevents : l.events = (k, t) :: events) :
    ∃ a', a.poll? = some (⟨k, t, (l.weight? t).getD zero⟩, a') ∧ a'.ListedBy { l with events } := by
  obtain ⟨rest, hpop, hrest⟩ := Queue.exists_pop? (h.events.trans hevents)
  refine ⟨{ a with events := rest }, ?_, h.weight, h.stored, h.listeners, hrest⟩
  simp [poll?, hpop, Automaton.weight, h.weight]

end ListedBy

end Automaton

end DemandAlias
