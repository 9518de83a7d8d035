import DemandAlias.Pushdown.Node

/-!
# Queries

A forward query asks where the value created by a statement goes. A backward query
asks which of these values a local may hold just before a statement.
-/

namespace DemandAlias

/-- What is wrong with a query. -/
inductive QueryFault where
  /-- The statement creates no value in the local. -/
  | notAllocating (stmt : Statement) (var : Local)
  /-- The statement is no call. -/
  | notCall (stmt : Statement)
  /-- The call has no such argument, or a constant there. -/
  | notLocalArgument (index : Nat) (stmt : Statement)
  deriving DecidableEq, Inhabited

/-- The fault in words. -/
def QueryFault.message : QueryFault → String
  | .notAllocating stmt var => stmt.render ++ " does not allocate into " ++ var.name
  | .notCall stmt => stmt.render ++ " has no invoke expression"
  | .notLocalArgument index stmt =>
    "argument " ++ toString index ++ " of " ++ stmt.render ++ " is not a local"

/-! ### Forward queries -/

/-- Where does the value created here go? -/
structure ForwardQuery where
  /-- The statement and the local it creates the value in. -/
  node : Node
  allocates : node.stmt.allocates node.var = true
  deriving DecidableEq

namespace ForwardQuery

instance : Hashable ForwardQuery where
  hash q := hash q.node

instance : Ord ForwardQuery where
  compare := compareOn node

instance : Std.TransOrd ForwardQuery := inferInstanceAs (Std.TransCmp (compareOn node))

instance : Std.LawfulEqOrd ForwardQuery :=
  lawfulEqCmp_compareOn fun ⟨_, _⟩ ⟨_, _⟩ h => by
    cases h
    rfl

/-- The query for the value `stmt` creates in `var`. -/
def of (stmt : Statement) (var : Local) : Except QueryFault ForwardQuery :=
  if h : stmt.allocates var = true then .ok ⟨⟨stmt, var⟩, h⟩
  else .error (.notAllocating stmt var)

/-- The class of the object created, if it is an object. -/
def className? (q : ForwardQuery) : Option ClassName :=
  match q.node.stmt.action with
  | .assign _ (.alloc className) => some className
  | _ => none

/-- The constant, if the value is one. -/
def constant? (q : ForwardQuery) : Option Constant :=
  match q.node.stmt.action with
  | .assign _ (.const c) => some c
  | _ => none

/-- How a forward query is written. -/
def render (q : ForwardQuery) : String := "forward " ++ q.node.render

end ForwardQuery

/-! ### Backward queries -/

/-- Which values may the local hold just before the statement? -/
structure BackwardQuery where
  node : Node
  deriving DecidableEq, Hashable, Inhabited

namespace BackwardQuery

/-- The query for the argument at place `index` of the call `stmt`. -/
def ofArgument (stmt : Statement) (index : Nat) : Except QueryFault BackwardQuery :=
  match stmt.call? with
  | none => .error (.notCall stmt)
  | some c =>
    match c.argument? index with
    | some var => .ok ⟨⟨stmt, var⟩⟩
    | none => .error (.notLocalArgument index stmt)

/-- How a backward query is written. -/
def render (q : BackwardQuery) : String := "backward " ++ q.node.render

end BackwardQuery

/-! ### Queries -/

/-- A query of either direction. -/
inductive Query where
  | forward (q : ForwardQuery)
  | backward (q : BackwardQuery)
  deriving DecidableEq, Hashable

namespace Query

/-- The node a query is about. -/
def node : Query → Node
  | .forward q => q.node
  | .backward q => q.node

/-- How a query is written. -/
def render : Query → String
  | .forward q => q.render
  | .backward q => q.render

end Query

end DemandAlias
