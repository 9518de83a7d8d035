import DemandAlias.Data.Multimap
import DemandAlias.Data.Order
import DemandAlias.Data.OrderedSet
import DemandAlias.Data.Queue
import DemandAlias.Weight.Basic

/-!
# Weighted automata with listeners

An automaton stores weighted transitions. Adding a transition that is there
already combines the weights. Whoever wants to know of transitions registers a
*listener* for a *topic*: the transitions out of a state, possibly with a given
label, those into a state, or all of them. Whenever a transition is added or its
weight changes, an event is queued for each listener of each of its topics, in
turn; and registering queues an event for each transition of the topic that is
there already. So it does not matter which of the two comes first.

Transitions and listeners are both filed by topic, in the order of their arrival.
States are numbered in the order in which they are first mentioned.
-/

namespace DemandAlias

open Std

/-! ### Transitions and topics -/

/-- A transition between states `σ` by a label `Λ`. -/
structure Transition (σ Λ : Type) where
  source : σ
  label : Λ
  target : σ
  deriving DecidableEq, Hashable, Inhabited

namespace Transition

variable {σ Λ : Type}

instance [Ord σ] [Ord Λ] : Ord (Transition σ Λ) where
  compare := compareOn fun t => (t.source, t.label, t.target)

/-- How a transition is written, given how states and labels are. -/
def render (state : σ → String) (label : Λ → String) (t : Transition σ Λ) : String :=
  state t.source ++ " --" ++ label t.label ++ "--> " ++ state t.target

end Transition

/-- What a listener may want to know of. -/
inductive Topic (σ Λ : Type) where
  /-- The transitions out of a state. -/
  | out (state : σ)
  /-- The transitions out of a state by a label. -/
  | outBy (state : σ) (label : Λ)
  /-- The transitions into a state. -/
  | into (state : σ)
  /-- All transitions. -/
  | all
  deriving DecidableEq, Hashable, Inhabited

namespace Topic

variable {σ Λ : Type}

/-- The state a topic is about. -/
def state? : Topic σ Λ → Option σ
  | .out state | .outBy state _ | .into state => some state
  | .all => none

end Topic

/-- The topics a transition belongs to, in the order in which their listeners are told. -/
def Transition.topics {σ Λ : Type} (t : Transition σ Λ) : List (Topic σ Λ) :=
  [.out t.source, .outBy t.source t.label, .into t.target, .all]

/-! ### Automata -/

/-- An automaton with states `σ`, labels `Λ`, weights `ω` and listeners `κ`. -/
structure Automaton (σ Λ ω κ : Type) [DecidableEq σ] [Hashable σ] [DecidableEq Λ]
    [Hashable Λ] where
  /-- The states, in the order in which they were first mentioned. -/
  states : OrderedSet σ := .empty
  initial : OrderedSet σ := .empty
  final : OrderedSet σ := .empty
  /-- The weights of the transitions. -/
  weights : HashMap (Transition σ Λ) ω := ∅
  /-- The transitions of each topic, in the order of their arrival. -/
  stored : Multimap (Topic σ Λ) (Transition σ Λ) := .empty
  /-- The listeners of each topic, in the order of their arrival. -/
  listeners : Multimap (Topic σ Λ) κ := .empty
  /-- Which listener is to be told of which transition. -/
  events : Queue (κ × Transition σ Λ) := .empty

namespace Automaton

variable {σ Λ ω κ : Type} [DecidableEq σ] [Hashable σ] [DecidableEq Λ] [Hashable Λ]

/-- The automaton without states. -/
def empty : Automaton σ Λ ω κ := {}

instance : Inhabited (Automaton σ Λ ω κ) := ⟨empty⟩

/-! ### Looking things up -/

/-- The transitions of a topic, in the order of their arrival. -/
def transitionsOf (a : Automaton σ Λ ω κ) (topic : Topic σ Λ) : List (Transition σ Λ) :=
  a.stored.get topic

/-- All transitions, in the order of their arrival. -/
def transitions (a : Automaton σ Λ ω κ) : List (Transition σ Λ) := a.transitionsOf .all

/-- How many transitions there are. -/
def transitionCount (a : Automaton σ Λ ω κ) : Nat := a.stored.count .all

/-- The weight of a transition, if it is there. -/
def weight? (a : Automaton σ Λ ω κ) (t : Transition σ Λ) : Option ω := a.weights[t]?

/-- The weight of a transition; that of no way at all if it is not there. -/
def weight [Weight ω] (a : Automaton σ Λ ω κ) (t : Transition σ Λ) : ω := (a.weight? t).getD zero

/-- Whether some event is queued. -/
def hasEvents (a : Automaton σ Λ ω κ) : Bool := !a.events.isEmpty

/-! ### States -/

/-- The automaton with `s` among its states. -/
def mention (a : Automaton σ Λ ω κ) (s : σ) : Automaton σ Λ ω κ :=
  { a with states := a.states.insert s }

/-- The automaton with `s` as an initial state. -/
def addInitial (a : Automaton σ Λ ω κ) (s : σ) : Automaton σ Λ ω κ :=
  let a := a.mention s
  { a with initial := a.initial.insert s }

/-- The automaton with `s` as a final state. -/
def addFinal (a : Automaton σ Λ ω κ) (s : σ) : Automaton σ Λ ω κ :=
  let a := a.mention s
  { a with final := a.final.insert s }

/-! ### Transitions -/

/-- Queues an event of `t` for every listener of each of its topics. -/
def announce (a : Automaton σ Λ ω κ) (t : Transition σ Λ) : Automaton σ Λ ω κ :=
  let told := t.topics.flatMap fun topic => (a.listeners.get topic).map fun k => (k, t)
  { a with events := a.events.pushAll told }

/-- Whether adding `t` with weight `w` changes the automaton. -/
def changesBy [Weight ω] [DecidableEq ω] (a : Automaton σ Λ ω κ) (t : Transition σ Λ)
    (w : ω) : Bool :=
  if w = zero then false
  else match a.weight? t with
    | some old => combine old w != old
    | none => true

/-- Adds `t` with weight `w`, or combines `w` with the weight of `t` if it is there. If that changes
    anything, the listeners are told; the weight of no way at all never does. -/
def add [Weight ω] [DecidableEq ω] (a : Automaton σ Λ ω κ) (t : Transition σ Λ) (w : ω) :
    Automaton σ Λ ω κ :=
  if w = zero then a
  else match a.weight? t with
    | some old =>
      let new := combine old w
      if new = old then a
      else { a with weights := a.weights.insert t new }.announce t
    | none =>
      let a := (a.mention t.source).mention t.target
      { a with
        weights := a.weights.insert t w
        stored := t.topics.foldl (fun m topic => m.file topic t) a.stored }.announce t

/-! ### Listeners -/

/-- Registers a listener for a topic, and queues an event for each transition of the
    topic that is there already. -/
def listen (a : Automaton σ Λ ω κ) (topic : Topic σ Λ) (k : κ) : Automaton σ Λ ω κ :=
  let a := match topic.state? with
    | some s => a.mention s
    | none => a
  let told := (a.transitionsOf topic).map fun t => (k, t)
  { a with
    listeners := a.listeners.file topic k
    events := a.events.pushAll told }

/-- What a listener is told: a transition and the weight it has at that time. -/
structure Delivery (σ Λ ω κ : Type) where
  listener : κ
  transition : Transition σ Λ
  weight : ω

/-- Delivers the next event. -/
def poll? [Weight ω] (a : Automaton σ Λ ω κ) :
    Option (Delivery σ Λ ω κ × Automaton σ Λ ω κ) :=
  match a.events.pop? with
  | none => none
  | some ((listener, transition), events) =>
    some ({ listener, transition, weight := a.weight transition }, { a with events })

end Automaton

end DemandAlias
