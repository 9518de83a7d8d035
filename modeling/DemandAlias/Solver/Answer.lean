import DemandAlias.Automaton.Final
import DemandAlias.Solver.Step

/-!
# What a solver has found

* `nodeWeights`: the nodes at which a value may be, with the weights of the ways to
  them;
* `holdsDirectly`: whether a node holds the tracked object itself and not only a
  field of it;
* `accessPathsAt`: by which fields of which locals the object is reached at a
  statement.
-/

namespace DemandAlias

open Std

/-! ### Access paths -/

/-- A local followed by fields. -/
structure AccessPath where
  base : Local
  fields : List Field
  deriving DecidableEq, Hashable, Inhabited

namespace AccessPath

instance : Ord AccessPath where
  compare := compareOn fun path => (path.base, path.fields)

instance : TransOrd AccessPath :=
  inferInstanceAs (TransCmp (compareOn fun path : AccessPath => (path.base, path.fields)))

instance : LawfulEqOrd AccessPath :=
  lawfulEqCmp_compareOn fun ⟨_, _⟩ ⟨_, _⟩ h => by
    cases h
    rfl

/-- How an access path is written. -/
def render (path : AccessPath) : String :=
  path.fields.foldl
    (fun text f =>
      match f with
      | .element | .key _ | .anyKey => text ++ f.render
      | .epsilon | .named _ => text ++ "." ++ f.render)
    path.base.name

end AccessPath

namespace Solver

variable {ω : Type} [Weight ω] [DecidableEq ω]

/-! ### Answers -/

/-- Combines `w` with the weight of `n`. -/
def combineAt (m : HashMap Node ω) (n : Node) (w : ω) : HashMap Node ω :=
  m.alter n fun old => some (match old with
    | some old => combine old w
    | none => w)

/-- The weights of the nodes reached. -/
def nodeWeights (s : Solver ω) : HashMap Node ω :=
  s.calls.transitionsToFinal.foldl
    (fun m (t, w) =>
      match t.source with
      | .single v =>
        let n : Node := ⟨t.label, v⟩
        if s.reached.contains n then combineAt m n w else m
      | _ => m)
    ∅

/-- Whether `n` holds the tracked object itself. -/
def holdsDirectly (s : Solver ω) (n : Node) : Bool :=
  (s.fields.transitionsOf (.out (.located n))).any fun t => t.label == .epsilon

/-- The most fields an access path has. There are longer ones only if the object
    reaches itself by its fields. -/
def maxPathLength : Nat := 8

/-- The transitions out of the states `qs` that push or pop a field. A step from a
    state to itself does not count. -/
def fieldSteps (s : Solver ω) (qs : List State) : List FieldTransition :=
  qs.flatMap fun q =>
    (s.fields.transitionsOf (.out q)).filter fun t => t.label ≠ .epsilon ∧ t.target ≠ q

/-- Whether the stack of fields may be empty at one of the states `qs`. -/
def endsAt (s : Solver ω) (qs : List State) : Bool :=
  qs.any fun q =>
    (s.fields.transitionsOf (.out q)).any fun t => t.label == .epsilon && t.target.isBottom

/-- The stacks of at most `limit` fields from any of the states `qs` down to a bottom.
    All states that the same fields lead to are looked at together. -/
def stacksFrom (s : Solver ω) (qs : List State) : (limit : Nat) → List (List Field)
  | 0 => if s.endsAt qs then [[]] else []
  | limit + 1 =>
    let steps := s.fieldSteps qs
    let longer := (steps.map Transition.label).eraseDups.flatMap fun f =>
      let targets := (steps.filter fun t => t.label == f).map Transition.target
      (s.stacksFrom targets.eraseDups limit).map (f :: ·)
    if s.endsAt qs then [] :: longer else longer

/-- The access paths by which the tracked object is reached at `stmt`, in order. -/
def accessPathsAt (s : Solver ω) (stmt : Statement) : List AccessPath :=
  sortedUnique <|
    (s.reached.toList.filter fun n => n.stmt == stmt).flatMap fun n =>
      (s.stacksFrom [.located n] maxPathLength).map fun fields => ⟨n.var, fields⟩

end Solver

end DemandAlias
