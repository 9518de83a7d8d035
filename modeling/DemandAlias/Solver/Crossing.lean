import DemandAlias.Data.OrderedSet
import DemandAlias.Flow.Backward
import DemandAlias.Flow.Forward
import DemandAlias.Program.CallGraph
import DemandAlias.Scope

/-!
# Crossing the call graph

A value *crosses* the call graph at a call site, into the callees, and in a method,
back to the callers. The edges of the call graph are found little by little, so a
solver *watches* its crossings: it remembers the nodes that are to follow each of
their edges, and how many of these edges the nodes have followed already.
-/

namespace DemandAlias

open Std

/-! ### Crossings -/

/-- Where edges of the call graph are followed from. -/
inductive Crossing where
  /-- From a call site into its callees. -/
  | into (site : Statement)
  /-- From a method back to its callers. -/
  | outOf (method : MethodName)
  deriving DecidableEq, Hashable, Inhabited

/-- An edge of the call graph. -/
structure CallEdge where
  site : Statement
  callee : MethodName
  deriving DecidableEq, Hashable, Inhabited

namespace Crossing

/-- Whether callees are entered. -/
def isInto : Crossing → Bool
  | .into _ => true
  | .outOf _ => false

/-- The edges of a crossing, in the order they were found. -/
def edges (g : CallGraph) : Crossing → List CallEdge
  | .into site => (g.callees site).map fun callee => ⟨site, callee⟩
  | .outOf method => (g.callers method).map fun site => ⟨site, method⟩

/-- The moves of `n` along an edge. An edge to a method without a body or across the
    border of the scope is not followed. -/
def moves (p : Program) (scope : Scope) (direction : Direction) (n : Node) (x : Crossing)
    (e : CallEdge) : List Move :=
  match p.method? e.callee with
  | none => []
  | some callee =>
    match x, direction with
    | .into _, .forward =>
      if scope.excludes e.callee then [] else Flow.Forward.intoCallee n e.site callee
    | .into _, .backward =>
      if scope.excludes e.callee then [] else Flow.Backward.intoCallee e.site callee
    | .outOf _, .forward =>
      if scope.excludes e.site.method then [] else Flow.Forward.toCaller p n callee e.site
    | .outOf _, .backward =>
      if scope.excludes e.site.method then [] else Flow.Backward.toCaller n callee e.site

end Crossing

/-! ### Watches -/

/-- Which crossings are watched by which nodes, and how many edges these have followed. -/
structure Watches where
  /-- The crossings, in the order in which they were come to. -/
  crossings : OrderedSet Crossing := .empty
  /-- The nodes that watch each of them, in the order in which they came. -/
  watchers : Multimap Crossing Node := .empty
  /-- How many of the edges of each of them are followed. -/
  followed : HashMap Crossing Nat := ∅

namespace Watches

/-- Nothing is watched. -/
def empty : Watches := {}

instance : Inhabited Watches := ⟨empty⟩

/-- Whether `x` is watched. -/
def isWatched (w : Watches) (x : Crossing) : Bool := w.crossings.contains x

/-- The nodes that watch `x`. -/
def nodes (w : Watches) (x : Crossing) : List Node := w.watchers.get x

/-- How many edges of `x` are followed. -/
def followedCount (w : Watches) (x : Crossing) : Nat := w.followed.getD x 0

/-- Lets `n` watch `x`. -/
def watch (w : Watches) (x : Crossing) (n : Node) : Watches :=
  { w with crossings := w.crossings.insert x, watchers := w.watchers.file x n }

/-- Notes that `count` edges of `x` are followed. -/
def setFollowed (w : Watches) (x : Crossing) (count : Nat) : Watches :=
  { w with followed := w.followed.insert x count }

/-- The crossings watched, those into callees first. -/
def inOrder (w : Watches) : List Crossing :=
  w.crossings.toList.filter Crossing.isInto ++ w.crossings.toList.filter fun x => !x.isInto

end Watches

end DemandAlias
