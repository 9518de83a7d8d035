import DemandAlias.Query
import DemandAlias.Weight.Trail

/-!
# Weighing moves

Which weights the moves of a solver have: all the same if only reachability is
asked for, or the trail they leave. A branch that goes one way only is recorded in
the trail; a branch whose ways meet is not.

A trail *contradicts* the creation of its object if it takes a branch that compares
the object itself with a constant in a way the comparison cannot come out: a fresh
object differs from every constant, and a constant is compared by its value.
-/

namespace DemandAlias

/-- The weights of moves. -/
structure Weighing (ω : Type) where
  /-- The weight of a move within a method. -/
  step : (source target : Node) → ω
  /-- The weight of entering a method. -/
  enter : (source target : Node) → ω
  /-- The weight of returning from a method. -/
  leave : (source target : Node) → ω
  /-- Whether no execution takes the ways of this weight, for the value created by the query. -/
  contradicts : ForwardQuery → ω → Bool

namespace Weighing

/-- Every move is as good as any other. -/
def reach : Weighing Reach where
  step _ _ := .one
  enter _ _ := .one
  leave _ _ := .one
  contradicts _ _ := false

/-- The outcome of the branch at `source`, if it is one and only one of its outcomes
    leads to `target`. -/
def outcome? (source target : Node) : Option Outcome :=
  match source.stmt.action with
  | .branch _ place =>
    let taken := target.stmt.index = place
    let skipped := target.stmt.index = source.stmt.index + 1
    if taken ∧ ¬skipped then some .taken
    else if skipped ∧ ¬taken then some .skipped
    else none
  | _ => none

/-- Whether the value created by the query equals the constant `c`, if that can be known. -/
def equals? (q : ForwardQuery) (c : Constant) : Option Bool :=
  match q.className?, q.constant? with
  | some _, _ => some false
  | none, some .null => some (c == .null)
  | none, some (.int a) =>
    match c with
    | .int b => some (a == b)
    | .null => some false
    | .str _ => none
  | none, some (.str a) =>
    match c with
    | .str b => some (a == b)
    | .null => some false
    | .int _ => none
  | none, none => none

/-- How the condition comes out when its left-hand side holds the value created by
    the query, if that can be known. -/
def evaluate? (q : ForwardQuery) (condition : Condition) : Option Bool :=
  match condition.rhs with
  | .var _ => none
  | .const c =>
    (equals? q c).map fun equal =>
      match condition.comparison with
      | .eq => equal
      | .ne => !equal

/-- Whether the outcome `o` of the branch at `n` cannot come out, the local of `n`
    holding the value created by the query. -/
def isImpossible (q : ForwardQuery) (n : Node) (o : Outcome) : Bool :=
  match n.stmt.action with
  | .branch condition _ =>
    condition.lhs == n.var &&
      match evaluate? q condition, o with
      | some value, .taken => !value
      | some value, .skipped => value
      | _, _ => false
  | _ => false

/-- The trail moves leave. -/
def trail : Weighing Trail where
  step source target :=
    match outcome? source target with
    | some o => .branch target source o
    | none => .step target
  enter _ target := .step target
  leave _ target := .step target
  contradicts q w := w.conditions.any fun (n, o) => isImpossible q n o

end Weighing

end DemandAlias
