import DemandAlias.Flow.Basic

/-!
# Following objects forward

Where the tracked object goes from a local that holds it just before a statement.
An assignment takes the object out of the local it writes, except where the object
is created: there it is put into that local.
-/

namespace DemandAlias.Flow.Forward

/-- What a node leads to, for the object created at `seed`. -/
def flow (p : Program) (seed n : Node) : Flow :=
  let next := p.successors n.stmt
  let stays := stepsTo next n.var
  match n.stmt.action with
  | .assign target value =>
    let stays := if target ≠ n.var ∨ n = seed then stays else []
    match value with
    | .copy source =>
      { moves := (if source = n.var then stepsTo next target else []) ++ stays }
    | .load base field =>
      let loads := if base = n.var then
          next.map fun stmt => Move.pop ⟨stmt, target⟩ (.field field)
        else []
      { moves := loads ++ stays }
    | .call c => { moves := stays, callSites := if c.uses n.var then [n.stmt] else [] }
    | .alloc _ | .const _ => { moves := stays }
  | .store base field value =>
    if value = n.var then
      { moves := next.map (fun stmt => Move.push ⟨stmt, base⟩ (.field field)) ++ stays
        effect := some (.writes base field) }
    else { moves := stays }
  | .call c => { moves := stays, callSites := if c.uses n.var then [n.stmt] else [] }
  | .ret _ => { callersOf := some n.stmt.method }
  | .branch _ _ | .jump _ | .nop => { moves := stays }

/-- Into `callee` at the call `site`: the arguments become the parameters, and the
    receiver becomes that of the callee. -/
def intoCallee (n : Node) (site : Statement) (callee : Method) : List Move :=
  match site.call?, callee.start? with
  | some c, some start =>
    let params := (c.placesOf n.var).filterMap fun i => callee.params[i]?
    let receiver := if c.receiver? = some n.var then callee.receiver.toList else []
    (params ++ receiver).map fun var => .push ⟨start, var⟩ (.call site)
  | _, _ => []

/-- The locals of the caller at `site` that hold the object when `callee` returns at `n`: the one
    the result is assigned to, and those that were passed, unless the result is assigned to them. -/
def returnedTo (n : Node) (callee : Method) (site : Statement) (c : Call) : List Local :=
  let lhs := site.defined?
  let result := match n.stmt.action with
    | .ret (some (.var v)) => if v = n.var then lhs.toList else []
    | _ => []
  let argument := (callee.paramIndex? n.var).bind c.argument?
  let receiver := if callee.isReceiver n.var then c.receiver? else none
  result ++ (argument.toList ++ receiver.toList).filter fun l => some l ≠ lhs

/-- Out of `callee` where it returns, to the statements after the call `site`. -/
def toCaller (p : Program) (n : Node) (callee : Method) (site : Statement) : List Move :=
  match site.call? with
  | none => []
  | some c =>
    (p.successors site).flatMap fun stmt =>
      (returnedTo n callee site c).map fun var => .pop ⟨stmt, var⟩ (.call site)

end DemandAlias.Flow.Forward
