import DemandAlias.Automaton.Basic
import DemandAlias.Pushdown.State
import DemandAlias.Solver.Crossing

/-!
# Rules, requests and messages

The listeners of a solver's automata are *rules*: what to add to the automaton when
a transition shows up. Some listen on behalf of other solvers; those are *requests*,
and what they hear is sent to the others as *messages*.

A store `base.f = v` is followed up by its *aliases*: whatever else holds the object
that `base` holds. They are looked for at the store itself and at the return sites
of its callers, frame by frame; a list of *frames* is the list of call sites
returned through on the way, the innermost first.
-/

namespace DemandAlias

/-- A transition that says which stack of calls a local has at a statement. -/
abbrev CallTransition := Transition State Statement

/-- A transition that says which stack of fields a node has. -/
abbrev FieldTransition := Transition State Field

/-! ### Requests -/

/-- What other solvers want to know of the stacks of calls. -/
inductive CallRequest where
  /-- The frames of the callers of the method of `store`, returning through `frames` first. -/
  | callerFrames (requester : SolverId) (store : Node) (field : Field) (frames : List Statement)
  /-- The locals at the return sites of the last of `frames`. -/
  | returnSites (requester : SolverId) (store : Node) (field : Field) (frames : List Statement)
  /-- The stacks of calls of a store that was found to write the value `value`. -/
  | storeContext (requester : SolverId) (value : Node)
  /-- The transitions out of a state, to be copied. -/
  | copy (requester : SolverId)
  deriving DecidableEq, Hashable, Inhabited

/-- What other solvers want to know of the stacks of fields. -/
inductive FieldRequest where
  /-- The stacks of fields of a node where a value is created. -/
  | allocation (node : Node)
  /-- The locals that hold the tracked object at `store`, besides `base`. -/
  | aliasesAt (requester : SolverId) (store : Node) (base : Local) (field : Field)
  /-- Whether a local at a return site holds the tracked object. -/
  | returnAlias (requester : SolverId) (store : Node) (field : Field) (frames : List Statement)
  /-- The stores to `field` of the tracked object; what they write is followed from
      the state `continuation` on. -/
  | storesOf (requester : SolverId) (field : Field) (continuation : State)
  deriving DecidableEq, Hashable, Inhabited

/-! ### Rules -/

/-- A listener of the automaton of calls. -/
inductive CallRule (ω : Type) where
  /-- Notes the nodes that have a stack of calls. -/
  | reach
  /-- Carries the stack over a move within a method. -/
  | step (source target : Node)
  /-- Pushes a call site on the stack. -/
  | push (source target : Node) (site : Statement)
  /-- Pops a call site from the stack. -/
  | pop (source target : Node) (site : Statement)
  /-- Waits for the frame below the one left; `weight` is the weight so far. -/
  | popMatch (target : Node) (weight : ω)
  /-- Leaves a frame for each of `frames` and adds `target` in the one reached. -/
  | unwind (target : Node) (frames : List Statement)
  /-- Listens for another solver. -/
  | request (r : CallRequest)
  deriving Inhabited

/-- A listener of the automaton of fields. -/
inductive FieldRule where
  /-- Notes the nodes that have a stack of fields. -/
  | reach
  /-- Carries the stack over a move that does not change it. -/
  | step (target : Node)
  /-- Pushes a field on the stack. -/
  | push (target : Node) (field : Field)
  /-- Pops a field from the stack. -/
  | pop (target : Node) (field : Field)
  /-- Waits for what is below the field popped. -/
  | popMatch (target : Node)
  /-- Listens for another solver. -/
  | request (r : FieldRequest)
  deriving DecidableEq, Inhabited

/-! ### Messages -/

/-- What a solver tells the others. -/
inductive Message where
  /-- The edges of a crossing are wanted. -/
  | wanted (x : Crossing)
  /-- The tracked object is written to `field` of what `base` holds. -/
  | fieldWrite (store : Node) (base : Local) (field : Field)
  /-- The value asked about is the one created at `node`, or is to be found in
      `label` of it and then by the stack of `target`. -/
  | allocation (node : Node) (label : Field) (target : State)
  /-- `other` holds the object written to at `store`, in the frame reached through `frames`. -/
  | aliasAt (requester : SolverId) (store : Node) (field : Field) (other : Node)
      (frames : List Statement)
  /-- The local `value` is written to the field asked for. -/
  | storeFound (requester : SolverId) (continuation : State) (store : Node) (value : Local)
  /-- The store that writes `value` has the stack of calls of `context`. -/
  | storeContext (requester : SolverId) (value : Node) (context : State)
  /-- A transition to be copied. -/
  | copied (requester : SolverId) (t : CallTransition)
  /-- A node was reached in a method said to be unreachable. -/
  | unreachable (node : Node)
  deriving DecidableEq, Inhabited

end DemandAlias
