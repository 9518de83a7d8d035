import Mathlib.Logic.Relation
import DemandAlias.Program.CallGraph
import DemandAlias.Proofs.Program.Flow

/-!
# Following an object with a stack of calls

The pushdown system behind a forward query in a program that does not access fields. Its
configurations are a node and the call sites to return to; a call pushes its site, and a
return pops the site it returns to. With nothing to return to, a return goes to any
caller, as the object may have been created in a callee.

Nodes of the system are at statements of the program, the first one apart, so none of
its moves accesses a field (`Leads.isCallMove`, `Leads.target_accessesField`).
-/

namespace DemandAlias

open Flow.Forward (flow intoCallee toCaller)

/-- Whether the statement reads or writes a field. -/
def Statement.accessesField (s : Statement) : Bool := s.field?.isSome

namespace Pushdown

/-- A node and the call sites to return to, the innermost first. -/
structure Configuration where
  node : Node
  stack : List Statement

/-- The move leads on from `n`, for the object created at `seed`. -/
inductive Leads (p : Program) (g : CallGraph) (seed n : Node) : Move → Prop
  | within {m : Move} (hm : m ∈ (flow p seed n).moves) : Leads p g seed n m
  | enter {site : Statement} {name : MethodName} {callee : Method} {m : Move}
      (hsite : site ∈ (flow p seed n).callSites) (hcallee : name ∈ g.callees site)
      (hdefined : p.method? name = some callee)
      (hm : m ∈ intoCallee n site callee) : Leads p g seed n m
  | leave {name : MethodName} {callee : Method} {site : Statement} {m : Move}
      (hname : (flow p seed n).callersOf = some name)
      (hsite : site ∈ g.callers name) (hdefined : p.method? name = some callee)
      (hm : m ∈ toCaller p n callee site) : Leads p g seed n m

/-- A step of the pushdown system. -/
inductive Step (p : Program) (g : CallGraph) (seed : Node) : Configuration → Configuration → Prop
  | within {n m : Node} {stack : List Statement} (h : Leads p g seed n (.step m)) :
    Step p g seed ⟨n, stack⟩ ⟨m, stack⟩
  | enter {n m : Node} {site : Statement} {stack : List Statement}
      (h : Leads p g seed n (.push m (.call site))) :
    Step p g seed ⟨n, stack⟩ ⟨m, site :: stack⟩
  | leave {n m : Node} {site : Statement} {stack : List Statement}
      (h : Leads p g seed n (.pop m (.call site))) :
    Step p g seed ⟨n, site :: stack⟩ ⟨m, stack⟩
  | leaveFirst {n m : Node} {site : Statement} (h : Leads p g seed n (.pop m (.call site))) :
    Step p g seed ⟨n, []⟩ ⟨m, []⟩

/-- The second configuration is come to from the first one. -/
abbrev Steps (p : Program) (g : CallGraph) (seed : Node) : Configuration → Configuration → Prop :=
  Relation.ReflTransGen (Step p g seed)

/-! ### Moves without fields -/

/-- The move leaves the stack of fields alone. -/
def IsCallMove : Move → Prop
  | .step _ | .push _ (.call _) | .pop _ (.call _) => True
  | .push _ (.field _) | .pop _ (.field _) => False

section NoFields

variable {p : Program} {g : CallGraph} {seed n : Node} {m : Move}

theorem exists_step_of_mem_moves (hn : n.stmt.accessesField = false)
    (hm : m ∈ (flow p seed n).moves) :
    ∃ stmt ∈ p.successors n.stmt, ∃ var, m = .step ⟨stmt, var⟩ := by
  obtain ⟨htarget, haccesses⟩ := Flow.Forward.accesses_of_mem_moves hm
  rw [isNone_iff_eq_none.1 (Option.isSome_eq_false_iff.1 hn)] at haccesses
  cases m with
  | step m => exact ⟨m.stmt, htarget, m.var, rfl⟩
  | push _ symbol | pop _ symbol => cases symbol <;> cases haccesses

theorem exists_push_of_mem_intoCallee {site : Statement} {callee : Method}
    (hm : m ∈ intoCallee n site callee) :
    ∃ start, callee.start? = some start ∧ ∃ var, m = .push ⟨start, var⟩ (.call site) := by
  unfold intoCallee at hm
  split at hm
  · next start _ hstart =>
    obtain ⟨var, -, rfl⟩ := mem_map.1 hm
    exact ⟨_, hstart, var, rfl⟩
  · cases hm

theorem exists_pop_of_mem_toCaller {site : Statement} {callee : Method}
    (hm : m ∈ toCaller p n callee site) :
    ∃ stmt ∈ p.successors site, ∃ var, m = .pop ⟨stmt, var⟩ (.call site) := by
  unfold toCaller at hm
  split at hm
  · cases hm
  · obtain ⟨stmt, hstmt, hm⟩ := mem_flatMap.1 hm
    obtain ⟨var, -, rfl⟩ := mem_map.1 hm
    exact ⟨stmt, hstmt, var, rfl⟩

theorem effect_eq_none (hn : n.stmt.accessesField = false) :
    (flow p seed n).effect = none := by
  cases heffect : (flow p seed n).effect with
  | none => rfl
  | some =>
    obtain ⟨_, _, -, haction⟩ := Flow.Forward.eq_writes_of_effect heffect
    simp [Statement.accessesField, Statement.field?, Action.field?, haction] at hn

/-- Without access to fields, no move changes the stack of fields. -/
theorem Leads.isCallMove (hn : n.stmt.accessesField = false) (h : Leads p g seed n m) :
    IsCallMove m := by
  cases h with
  | within hm =>
    obtain ⟨_, -, _, rfl⟩ := exists_step_of_mem_moves hn hm
    trivial
  | enter _ _ _ hm =>
    obtain ⟨_, -, _, rfl⟩ := exists_push_of_mem_intoCallee hm
    trivial
  | leave _ _ _ hm =>
    obtain ⟨_, -, _, rfl⟩ := exists_pop_of_mem_toCaller hm
    trivial

/-- If no statement of the program accesses a field, moves lead to nodes that do not. -/
theorem Leads.target_accessesField (hp : p.IsLaidOut)
    (hstatements : ∀ s ∈ p.statements, s.accessesField = false)
    (hn : n.stmt.accessesField = false) (h : Leads p g seed n m) :
    m.target.stmt.accessesField = false := by
  cases h with
  | within hm =>
    obtain ⟨stmt, hstmt, _, rfl⟩ := exists_step_of_mem_moves hn hm
    exact hstatements stmt (hp.mem_statements_of_mem_successors hstmt)
  | enter _ _ hdefined hm =>
    obtain ⟨start, hstart, _, rfl⟩ := exists_push_of_mem_intoCallee hm
    exact hstatements start (Program.mem_statements_of_start? hdefined hstart)
  | leave _ _ _ hm =>
    obtain ⟨stmt, hstmt, _, rfl⟩ := exists_pop_of_mem_toCaller hm
    exact hstatements stmt (hp.mem_statements_of_mem_successors hstmt)

end NoFields

end Pushdown

end DemandAlias
