import Std.Data.HashSet
import DemandAlias.Automaton.Basic

/-!
# Loops

Whether an automaton can go round in circles: whether some state on the way from an
initial state leads back to itself. Transitions by a silent label do not count. The
search goes down from each initial state and fails when it meets a state of the way
it came; states it has come back from without a failure are done.
-/

namespace DemandAlias.Automaton

open Std

variable {σ Λ ω κ : Type} [DecidableEq σ] [Hashable σ] [DecidableEq Λ] [Hashable Λ]

/-- The states one transition away from `s` that is not silent. -/
def nextStates (a : Automaton σ Λ ω κ) (silent : Λ → Bool) (s : σ) : List σ :=
  (a.transitionsOf (.out s)).filterMap fun t => if silent t.label then none else some t.target

/-- Searches everything behind `s`, having come to it by way of the states `path`, and gives the
    states done afterwards; nothing if it meets the way it came. The way has at most as many states
    as there are, so `depth` starts as their number. -/
def search (next : σ → List σ) : (depth : Nat) → (path : List σ) → HashSet σ → σ →
    Option (HashSet σ)
  | 0, _, done, _ => some done
  | depth + 1, path, done, s =>
    let path := s :: path
    let behind := (next s).foldlM
      (fun done t =>
        if path.contains t then none
        else if done.contains t then some done
        else search next depth path done t)
      done
    behind.map fun done => done.insert s

/-- Whether a loop of transitions that are not silent can be reached from an initial state. -/
def hasLoop (a : Automaton σ Λ ω κ) (silent : Λ → Bool) : Bool :=
  let done := a.initial.toList.foldlM
    (fun done s =>
      if done.contains s then some done
      else search (a.nextStates silent) a.states.size [] done s)
    ∅
  done.isNone

end DemandAlias.Automaton
