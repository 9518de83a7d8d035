import DemandAlias.Program.Statement

/-!
# Nodes and moves

A node is a local at a statement. Going forward it says that the local holds the
tracked object just before the statement runs; going backward it asks where the
value comes from that the local holds just before the statement runs. A move leads
from a node to another one and may push a symbol on one of two stacks, or pop one
from it: the stack of calls to return from, and the stack of fields to read.
-/

namespace DemandAlias

/-! ### Nodes -/

/-- A local at a statement. -/
structure Node where
  stmt : Statement
  var : Local
  deriving DecidableEq, Hashable, Inhabited

namespace Node

instance : Ord Node where
  compare := compareOn fun n => (n.stmt, n.var)

instance : Std.TransOrd Node :=
  inferInstanceAs (Std.TransCmp (compareOn fun n : Node => (n.stmt, n.var)))

instance : Std.LawfulEqOrd Node :=
  lawfulEqCmp_compareOn fun ⟨_, _⟩ ⟨_, _⟩ h => by
    cases h
    rfl

/-- A node in full, with its statement. -/
def render (n : Node) : String := n.var.name ++ " @ " ++ n.stmt.render

/-- A node by its place. -/
def place (n : Node) : String := "(" ++ n.stmt.place ++ ", " ++ n.var.name ++ ")"

end Node

/-! ### Moves -/

/-- A symbol of one of the stacks. -/
inductive StackSymbol where
  /-- A call site, to be returned to. -/
  | call (site : Statement)
  /-- A field, to be read. -/
  | field (f : Field)
  deriving DecidableEq, Hashable, Inhabited

namespace StackSymbol

/-- The shape that orders stack symbols. -/
def shape : StackSymbol → Statement ⊕ Field
  | .call site => .inl site
  | .field f => .inr f

instance : Ord StackSymbol where
  compare := compareOn shape

/-- How a stack symbol is written. -/
def render : StackSymbol → String
  | .call site => "call " ++ site.place
  | .field f => "field " ++ f.render

end StackSymbol

/-- A move to a node. -/
inductive Move where
  /-- Both stacks stay. -/
  | step (n : Node)
  /-- The symbol is pushed on its stack. -/
  | push (n : Node) (symbol : StackSymbol)
  /-- The symbol is popped, being on top of its stack. -/
  | pop (n : Node) (symbol : StackSymbol)
  deriving DecidableEq, Hashable, Inhabited

namespace Move

/-- The node a move leads to. -/
def target : Move → Node
  | .step n | .push n _ | .pop n _ => n

/-- The shape that orders moves. -/
def shape : Move → Node ⊕ (Node × StackSymbol) ⊕ (Node × StackSymbol)
  | .step n => .inl n
  | .push n symbol => .inr (.inl (n, symbol))
  | .pop n symbol => .inr (.inr (n, symbol))

instance : Ord Move where
  compare := compareOn shape

end Move

end DemandAlias
