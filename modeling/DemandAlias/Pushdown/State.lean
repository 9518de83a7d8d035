import DemandAlias.Pushdown.Node

/-!
# States

The states of the automata that stand for the contents of the two stacks. A state
is a local (the stack of calls of everything that local is at), a node (its stack
of fields), or *generated* from another state: below a symbol that was pushed, at
the bottom of all stacks, or as the copy of a state of another solver.
-/

namespace DemandAlias

/-- The number of a solver, in the order of their creation. -/
structure SolverId where
  index : Nat
  deriving DecidableEq, Hashable, Inhabited

namespace SolverId

instance : Ord SolverId where
  compare := compareOn index

end SolverId

/-- What a state is generated for. -/
inductive Origin where
  /-- The frame of a method entered at this statement. -/
  | entry (stmt : Statement)
  /-- What is below a field that was pushed. -/
  | field (f : Field)
  /-- The bottom of the stacks of a solver. -/
  | bottom
  /-- The copy of a state of another solver. -/
  | imported (solver : SolverId)
  deriving DecidableEq, Hashable, Inhabited

namespace Origin

/-- The shape that orders origins. -/
def shape : Origin → Statement ⊕ Field ⊕ Unit ⊕ SolverId
  | .entry stmt => .inl stmt
  | .field f => .inr (.inl f)
  | .bottom => .inr (.inr (.inl ()))
  | .imported solver => .inr (.inr (.inr solver))

instance : Ord Origin where
  compare := compareOn shape

end Origin

/-- A state of an automaton. -/
inductive State where
  /-- A local, wherever it is. -/
  | single (var : Local)
  /-- A node. -/
  | located (node : Node)
  /-- A state generated from another one. -/
  | generated (base : State) (origin : Origin)
  deriving DecidableEq, Hashable, Inhabited

namespace State

/-- The bottom of the stacks of the solver that starts at `seed`. -/
def bottom (seed : Node) : State := .generated (.located seed) .bottom

/-- Whether the state is the bottom of some stacks. -/
def isBottom : State → Bool
  | .generated _ .bottom => true
  | _ => false

/-- Whether the state is generated from another one. -/
def isGenerated : State → Bool
  | .generated _ _ => true
  | _ => false

/-- The node a state is. -/
def node? : State → Option Node
  | .located node => some node
  | _ => none

/-- The local a state is. -/
def var? : State → Option Local
  | .single var => some var
  | _ => none

/-- Locals come before nodes, and nodes before generated states, which are ordered
    by what they are generated from and then by what for. -/
def order : State → State → Ordering
  | .single a, .single b => compare a b
  | .single _, _ => .lt
  | _, .single _ => .gt
  | .located a, .located b => compare a b
  | .located _, _ => .lt
  | _, .located _ => .gt
  | .generated a x, .generated b y => (a.order b).then (compare x y)

instance : Ord State where
  compare := order

/-- How a state is written. -/
def render : State → String
  | .single var => var.name
  | .located node => node.place
  | .generated base (.entry stmt) => "<" ++ base.render ++ ", " ++ stmt.place ++ ">"
  | .generated base (.field f) => "<" ++ base.render ++ ", " ++ f.render ++ ">"
  | .generated base .bottom => "⊥" ++ base.render
  | .generated base (.imported solver) => base.render ++ "#" ++ toString solver.index

end State

end DemandAlias
