import DemandAlias.Analysis.Session

/-!
# Traces

How a run grows: the same query is answered again and again, each time from the
beginning, with more and more steps allowed, and each time what is new is listed.
-/

namespace DemandAlias

/-- What is observed of a run of either direction. -/
structure Observation where
  automata : Snapshot
  stats : Stats
  timedOut : Bool
  /-- How many edges the call graph has afterwards. -/
  edges : Nat

/-- What a run with limited steps adds. -/
structure Stage where
  /-- How many steps were allowed. -/
  limit : Nat
  /-- What the stage before had not. -/
  news : List String
  stats : Stats
  edges : Nat
  deriving DecidableEq, Inhabited

/-- The numbers of steps `low`, `low + stride`, … up to `high`. -/
def stepLimits (low high stride : Nat) : List Nat :=
  (List.range (high + 1 - low)).filterMap fun i =>
    if low + i * stride ≤ high then some (low + i * stride) else none

namespace Session

variable {ω : Type} [Weight ω] [DecidableEq ω]

/-- Answers a query in a new session. -/
def observe (setting : Setting ω) (q : Query) : Except Error Observation :=
  let session := Session.start setting
  match q with
  | .forward q =>
    let (result, session) := session.solveForward q
    result.map fun r => ⟨r.automata, r.stats, r.timedOut, session.graph.size⟩
  | .backward q =>
    let (result, session) := session.solveBackward q
    result.map fun r => ⟨r.automata, r.stats, r.timedOut, session.graph.size⟩

/-- Answers a query with each of the limits in turn, up to the first run that is not
    stopped by its limit or fails. -/
def trace (setting : Setting ω) (q : Query) (old : Snapshot) :
    List Nat → List (Except Error Stage)
  | [] => []
  | limit :: limits =>
    let options := { setting.options with maxSteps := some limit }
    match observe { setting with options } q with
    | .error e => [.error e]
    | .ok o =>
      .ok ⟨limit, o.automata.news old, o.stats, o.edges⟩
        :: if o.timedOut then trace setting q o.automata limits else []

end Session

end DemandAlias
