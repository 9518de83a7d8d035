import DemandAlias.Weight.Basic
import DemandAlias.Weight.Conditions

/-!
# Trails

The weights that tell how the tracked object got somewhere: the nodes visited on
the shortest way there, and the outcomes of branches that all ways there agree on.
Of two ways of the same length the one that comes first in the order of nodes
counts, so that the answer does not depend on the order in which ways are found.
-/

namespace DemandAlias

/-- A way of the tracked object, if there is one. -/
inductive Trail where
  /-- There is no way. -/
  | zero
  /-- The nodes visited on the shortest way, and the outcomes every way agrees on. -/
  | path (nodes : List Node) (conditions : Conditions)
  deriving DecidableEq, Inhabited

namespace Trail

/-- The way that goes to `n`. -/
def step (n : Node) : Trail := .path [n] .none

/-- The way that goes to `n` by the outcome `o` of the branch at `b`. -/
def branch (n b : Node) (o : Outcome) : Trail := .path [n] (.single b o)

/-- The nodes visited. -/
def nodes : Trail → List Node
  | .zero => []
  | .path nodes _ => nodes

/-- The outcomes known, in the order of their nodes. -/
def conditions : Trail → List (Node × Outcome)
  | .zero => []
  | .path _ conditions => conditions.entries

/-- The shorter of two node lists, or of two of the same length the one that comes first. -/
def shorter (a b : List Node) : List Node :=
  if (compare (a.length, a) (b.length, b)).isLE then a else b

instance : Weight Trail where
  one := .path [] .none
  zero := .zero
  combine
    | .zero, w => w
    | w, .zero => w
    | .path n c, .path m d => .path (shorter n m) (c.agreed d)
  extend
    | .path n c, .path m d => .path (n ++ m) (c.along d)
    | _, _ => .zero

/-- A step of a trail: a node, and the outcome of the branch there if it is one and
    its outcome is known. -/
structure Element where
  node : Node
  outcome : Option Outcome
  deriving DecidableEq, Inhabited

/-- How a step of a trail is written. -/
def Element.render (e : Element) : String :=
  match e.outcome with
  | none => e.node.render
  | some o => e.node.render ++ " [" ++ o.render ++ "]"

/-- The steps of a trail. -/
def elements : Trail → List Element
  | .zero => []
  | .path nodes conditions => nodes.map fun node => { node, outcome := conditions.get? node }

end Trail

end DemandAlias
