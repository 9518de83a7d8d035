import DemandAlias.Data.Multimap
import DemandAlias.Program.Basic

/-!
# Call graphs

A call graph has an edge from a call site to each method it may call. Edges are
only ever added, and those of a call site and of a method are kept in the order of
their arrival, so that a reader who remembers how many it has seen can go on from
there.
-/

namespace DemandAlias

/-- Edges from call sites to the methods they may call. -/
structure CallGraph where
  /-- The callees of each call site. -/
  calleesOf : Multimap Statement MethodName := .empty
  /-- The call sites of each callee. -/
  callersOf : Multimap MethodName Statement := .empty
  /-- How many edges there are. -/
  size : Nat := 0
  deriving Inhabited

namespace CallGraph

/-- The graph without edges. -/
def empty : CallGraph := {}

/-- The methods `site` may call, in the order they were found. -/
def callees (g : CallGraph) (site : Statement) : List MethodName := g.calleesOf.get site

/-- The call sites that may call `m`, in the order they were found. -/
def callers (g : CallGraph) (m : MethodName) : List Statement := g.callersOf.get m

/-- Whether there is an edge from `site` to `m`. -/
def hasEdge (g : CallGraph) (site : Statement) (m : MethodName) : Bool :=
  (g.callees site).contains m

/-- The graph with an edge from `site` to `m`. -/
def addEdge (g : CallGraph) (site : Statement) (m : MethodName) : CallGraph :=
  if g.hasEdge site m then g
  else {
    calleesOf := g.calleesOf.file site m
    callersOf := g.callersOf.file m site
    size := g.size + 1 }

/-- Adds an edge from `site` to `m`, and tells whether it is new. -/
def insertEdge (g : CallGraph) (site : Statement) (m : MethodName) : Bool × CallGraph :=
  (!g.hasEdge site m, g.addEdge site m)

/-- The methods a call may call, whatever its receiver: a static callee if it is
    defined, and for a virtual call the method of every class. -/
def possibleCallees (p : Program) (c : Call) : List MethodName :=
  match c.callee with
  | .static m => if p.defines m then [m] else []
  | .virtual _ name => p.classes.filterMap fun c => p.dispatch c.name name

/-- The call graph of the class hierarchy: every call with every method it may call. -/
def classHierarchy (p : Program) : CallGraph :=
  p.invocations.foldl
    (fun g site =>
      match site.call? with
      | some c => (possibleCallees p c).foldl (fun g m => g.addEdge site m) g
      | none => g)
    empty

end CallGraph

export CallGraph (classHierarchy)

end DemandAlias
