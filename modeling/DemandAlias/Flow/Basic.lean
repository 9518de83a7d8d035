import DemandAlias.Program.Basic
import DemandAlias.Pushdown.Node

/-!
# Flows

What a node leads to: moves to other nodes, call sites whose callees it leads into,
the method whose callers it leads back to, and what it means for other solvers.
-/

namespace DemandAlias

/-- The two directions in which values are followed. -/
inductive Direction where
  /-- Where does the object go? -/
  | forward
  /-- Where does the value come from? -/
  | backward
  deriving DecidableEq, Inhabited

/-- What a node means for other solvers. -/
inductive Effect where
  /-- The tracked object is written to a field of what `base` holds. -/
  | writes (base : Local) (field : Field)
  /-- The value asked about is created here. -/
  | creates
  deriving DecidableEq, Inhabited

/-- What a node leads to. -/
structure Flow where
  /-- The moves within the method. -/
  moves : List Move := []
  /-- The call sites it leads into. -/
  callSites : List Statement := []
  /-- The method whose callers it leads back to. -/
  callersOf : Option MethodName := none
  /-- What it means for other solvers. -/
  effect : Option Effect := none
  deriving Inhabited

/-- The moves that keep both stacks, to `var` at each of `stmts`. -/
def stepsTo (stmts : List Statement) (var : Local) : List Move :=
  stmts.map fun stmt => .step ⟨stmt, var⟩

end DemandAlias
