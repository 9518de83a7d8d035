/-!
# Options

How far an analysis goes and what it reports.
-/

namespace DemandAlias

/-- The options of an analysis. -/
structure Options where
  /-- How many milliseconds a query may take, with all the queries it raises. -/
  timeout : Option Nat := some 10000
  /-- How many steps a query may take. -/
  maxSteps : Option Nat := none
  /-- Whether calls are resolved when they are come to, by asking for their receivers,
      and not beforehand by the class hierarchy. -/
  onTheFly : Bool := false
  /-- Whether the trails to the nodes are reported. -/
  reportTrails : Bool := false
  /-- Whether nodes are left out whose trails no execution takes. -/
  prune : Bool := false
  /-- Whether reaching a method said to be unreachable is an error. -/
  checkUnreachable : Bool := true
  /-- Whether the aliases of what is asked about are reported. -/
  reportAliases : Bool := true
  deriving DecidableEq, Inhabited

/-- Whether the steps or the milliseconds allowed are used up. The time is only looked
    at before every `batch`th step. -/
def Options.isExhausted (o : Options) (batch steps elapsed : Nat) : Bool :=
  o.maxSteps.any (· ≤ steps) || (steps % batch == 0 && o.timeout.any (· ≤ elapsed))

end DemandAlias
