import DemandAlias.Flow.Basic

/-!
# Following values backward

Where the value comes from that a local holds just before a statement. The search
goes to the statements that may have run right before it, ends where a value is
created in the local, and leaves the method at its start if the local was passed.
-/

namespace DemandAlias.Flow.Backward

/-- The moves from `v`, just after the statement `p`, to just before it. -/
def movesOver (v : Local) (p : Statement) : List Move :=
  match p.action with
  | .assign target value =>
    if target = v then
      match value with
      | .copy source => [.step ⟨p, source⟩]
      | .alloc _ | .const _ => [.step ⟨p, v⟩]
      | .load base field => [.push ⟨p, base⟩ (.field field)]
      | .call _ => []
    else [.step ⟨p, v⟩]
  | .store base field value =>
    if base = v then [.pop ⟨p, value⟩ (.field field), .step ⟨p, v⟩] else [.step ⟨p, v⟩]
  | _ => [.step ⟨p, v⟩]

/-- Whether `v` is what the call `p` returns. -/
def isResultOf (v : Local) (p : Statement) : Bool := p.isCall && p.defined? == some v

/-- Whether `v` was passed to the method that starts with `s`. -/
def isPassed (p : Program) (s : Statement) (v : Local) : Bool :=
  match p.method? s.method with
  | some m => m.isStart s && ((m.paramIndex? v).isSome || m.isReceiver v)
  | none => false

/-- What a node leads to. -/
def flow (p : Program) (n : Node) : Flow :=
  if n.stmt.allocates n.var then { effect := some .creates }
  else
    let before := p.predecessors n.stmt
    { moves := before.flatMap (movesOver n.var)
      callSites := before.filter (isResultOf n.var)
      callersOf := if isPassed p n.stmt n.var then some n.stmt.method else none }

/-- Into `callee` where it returns, for the value the call `site` returns. -/
def intoCallee (site : Statement) (callee : Method) : List Move :=
  callee.exits.filterMap fun exit =>
    match exit.action with
    | .ret (some (.var v)) => some (.push ⟨exit, v⟩ (.call site))
    | _ => none

/-- Out of `callee` at its start, to the argument or the receiver of the call `site`. -/
def toCaller (n : Node) (callee : Method) (site : Statement) : List Move :=
  match site.call? with
  | none => []
  | some c =>
    let argument := (callee.paramIndex? n.var).bind c.argument?
    let receiver := if callee.isReceiver n.var then c.receiver? else none
    (argument.toList ++ receiver.toList).map fun var => .pop ⟨site, var⟩ (.call site)

end DemandAlias.Flow.Backward
