import DemandAlias.Automaton.Basic

/-!
# Ways to final states

For every transition, the combined weight of the ways that go through it to a final
state, each weighed from its end: the transitions nearer to the final state come
first. The weights of the ways from each state are found by relaxing all
transitions, in the order of their arrival, until nothing changes any more.
-/

namespace DemandAlias.Automaton

open Std

variable {σ Λ ω κ : Type} [DecidableEq σ] [Hashable σ] [DecidableEq Λ] [Hashable Λ]
  [Weight ω] [DecidableEq ω]

/-- The weights of the ways found so far from each state to a final one. -/
structure Ways (σ ω : Type) [DecidableEq σ] [Hashable σ] where
  weights : HashMap σ ω := ∅

namespace Ways

/-- The weight of the ways found from `s`. -/
def weightFrom (d : Ways σ ω) (s : σ) : ω := d.weights.getD s zero

/-- The ways with those from `s` weighing `w`. -/
def setFrom (d : Ways σ ω) (s : σ) (w : ω) : Ways σ ω := { weights := d.weights.insert s w }

/-- The weight of the ways from the source of `t` when those that begin with `t`, of
    weight `w`, are taken into account. -/
def through (d : Ways σ ω) (t : Transition σ Λ) (w : ω) : ω :=
  let rest := d.weightFrom t.target
  let known := d.weightFrom t.source
  if rest = zero then known else combine known (extend rest w)

end Ways

/-- Takes the ways into account that begin with any of the transitions, one after
    the other, and tells whether that changed anything. -/
def relaxAll (a : Automaton σ Λ ω κ) (d : Ways σ ω) : Ways σ ω × Bool :=
  a.transitions.foldl
    (fun (d, changed) t =>
      let w := d.through t (a.weight t)
      if w = d.weightFrom t.source then (d, changed) else (d.setFrom t.source w, true))
    (d, false)

/-- The ways found in at most `n` rounds. -/
def waysWithin (a : Automaton σ Λ ω κ) : Nat → Ways σ ω → Ways σ ω
  | 0, d => d
  | n + 1, d =>
    let (d, changed) := a.relaxAll d
    if changed then a.waysWithin n d else d

/-- The ways known at first: a final state is where it has to be. -/
def startWays (a : Automaton σ Λ ω κ) : Ways σ ω :=
  a.final.toList.foldl (fun d s => d.setFrom s one) {}

/-- The weights of the ways from each state to a final one. -/
def waysToFinal (a : Automaton σ Λ ω κ) : Ways σ ω := a.waysWithin (a.states.size + 1) a.startWays

/-- The transitions some way to a final state goes through, in the order of their
    arrival, with the weights of those ways. -/
def transitionsToFinal (a : Automaton σ Λ ω κ) : List (Transition σ Λ × ω) :=
  let d := a.waysToFinal
  a.transitions.filterMap fun t =>
    let rest := d.weightFrom t.target
    if rest = zero then none else some (t, extend rest (a.weight t))

end DemandAlias.Automaton
