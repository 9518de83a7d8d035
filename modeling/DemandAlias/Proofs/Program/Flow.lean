import DemandAlias.Flow.Backward
import DemandAlias.Flow.Forward
import DemandAlias.Proofs.Program.Layout

/-!
# Moves within a method

Whatever the direction, a move within a method leads over one statement and accesses no
field but the one that this statement reads or writes. In programs that are described,
this is a field with a name, never the empty label (`Description.fieldsNamed_of_resolve`).
-/

namespace DemandAlias

variable {m : Move} {site : Statement} {p : Program}

/-- What a node leads to in a search in this direction from `seed`. -/
def Program.flow (p : Program) : Direction → Node → Node → Flow
  | .forward, seed, n => Flow.Forward.flow p seed n
  | .backward, _, n => Flow.Backward.flow p n

/-! ### Fields of statements -/

/-- The field an action reads or writes. -/
def Action.field? : Action → Option Field
  | .assign _ (.load _ field) | .store _ field _ => some field
  | _ => none

/-- The field a statement reads or writes. -/
def Statement.field? (s : Statement) : Option Field := s.action.field?

/-- No statement reads or writes the empty label. -/
def Program.FieldsNamed (p : Program) : Prop := ∀ s ∈ p.statements, s.field? ≠ some .epsilon

theorem Field.ofName_ne_epsilon (name : String) : ofName name ≠ .epsilon := by
  unfold ofName
  split <;> nofun

theorem Field.ofKey_ne_epsilon (c : Option Constant) : ofKey c ≠ .epsilon := by
  unfold ofKey
  split <;> nofun

namespace MethodContext

theorem field?_callAction (ctx : MethodContext) (lhs : Option String) (callee : Callee)
    (args : List (Operand String)) : (ctx.callAction lhs callee args).field? = none := by
  unfold callAction
  split <;> rfl

theorem field?_virtualAction (ctx : MethodContext) (lhs : Option String) (base name : String)
    (args : List (Operand String)) :
    (ctx.virtualAction lhs base name args).field? ≠ some .epsilon := by
  have hcall : (ctx.callAction lhs (.virtual (ctx.localNamed base) name) args).field? ≠
      some .epsilon := by simp [field?_callAction]
  have hkey : ∀ key, some (ctx.keyField key) ≠ some .epsilon := fun key heq =>
    Field.ofKey_ne_epsilon _ (some.inj heq)
  unfold virtualAction
  dsimp only
  split
  · split
    · exact hkey _
    · exact hcall
  · split
    · split
      · exact hkey _
      · nofun
      · exact hcall
    · exact hcall

theorem field?_of_action {ctx : MethodContext} {i : Instruction} {a : Action}
    (h : ctx.action i = .ok a) : a.field? ≠ some .epsilon := by
  cases i with
  | new _ _ | const _ _ | copy _ _ | ret _ | nop =>
    cases h
    nofun
  | load lhs base field | store base field rhs =>
    cases h
    exact fun heq => Field.ofName_ne_epsilon field (some.inj heq)
  | call =>
    simp only [action] at h
    split at h
    · cases h
      simp [field?_callAction]
    · cases h
  | virtualCall lhs base name args =>
    cases h
    exact field?_virtualAction ctx lhs base name args
  | branch | jump =>
    simp only [action, bind, Except.bind] at h
    split at h
    · cases h
    · cases h
      nofun

end MethodContext

/-- In a program that a description describes, all fields have names. -/
theorem Description.fieldsNamed_of_resolve {d : Description} (h : d.resolve = .ok p) :
    p.FieldsNamed := by
  intro s hs
  obtain ⟨m, hm, hs⟩ := (p.mem_statements_iff s).1 hs
  exact forall_of_resolve
    (MethodContext.action_of_method MethodContext.field?_of_action) h m hm s hs

/-! ### Moves -/

/-- The move leaves the stack of calls alone, and the stack of fields too unless `field?`
    is the field it pushes or pops. -/
def Move.Accesses (field? : Option Field) : Move → Prop
  | .step _ => True
  | .push _ (.field f) | .pop _ (.field f) => field? = some f
  | .push _ (.call _) | .pop _ (.call _) => False

theorem accesses_of_mem_stepsTo {stmts : List Statement} {var : Local} (hm : m ∈ stepsTo stmts var)
    (field? : Option Field) :
    m.target.stmt ∈ stmts ∧ m.Accesses field? := by
  obtain ⟨stmt, hstmt, rfl⟩ := mem_map.1 hm
  exact ⟨hstmt, trivial⟩

namespace Flow

open Forward (flow)

variable {p : Program} {n seed : Node}

theorem Forward.accesses_of_mem_moves (hm : m ∈ (flow p seed n).moves) :
    m.target.stmt ∈ p.successors n.stmt ∧ m.Accesses n.stmt.field? := by
  have hif : ∀ {var : Local} {P : Prop} [Decidable P],
      m ∈ (if P then stepsTo (p.successors n.stmt) var else []) →
      m.target.stmt ∈ p.successors n.stmt ∧ m.Accesses n.stmt.field? := fun hm => by
    split at hm
    · exact accesses_of_mem_stepsTo hm _
    · cases hm
  cases haction : n.stmt.action with
  | assign _ value =>
    cases value with
    | copy =>
      simp only [flow, haction, mem_append] at hm
      exact hm.elim hif hif
    | load _ field =>
      simp only [flow, haction, mem_append] at hm
      rcases hm with hm | hm
      · split at hm
        · obtain ⟨stmt, hstmt, rfl⟩ := mem_map.1 hm
          exact ⟨hstmt, by simp [Move.Accesses, Statement.field?, Action.field?, haction]⟩
        · cases hm
      · exact hif hm
    | alloc _ | const _ | call _ =>
      simp only [flow, haction] at hm
      exact hif hm
  | store _ field =>
    simp only [flow, haction] at hm
    split at hm
    · rcases mem_append.1 hm with hm | hm
      · obtain ⟨stmt, hstmt, rfl⟩ := mem_map.1 hm
        exact ⟨hstmt, by simp [Move.Accesses, Statement.field?, Action.field?, haction]⟩
      · exact accesses_of_mem_stepsTo hm _
    · exact accesses_of_mem_stepsTo hm _
  | ret =>
    simp only [flow, haction] at hm
    cases hm
  | call _ | branch _ _ | jump _ | nop =>
    simp only [flow, haction] at hm
    exact accesses_of_mem_stepsTo hm _

/-- Going forward, a field is pushed where the local is written to it. -/
theorem Forward.action_of_push {target : Node} {f : Field}
    (hm : .push target (.field f) ∈ (flow p seed n).moves) :
    ∃ base, n.stmt.action = .store base f n.var := by
  have hsteps : ∀ {stmts : List Statement} {var : Local},
      Move.push target (.field f) ∉ stepsTo stmts var := fun hm => by
    obtain ⟨stmt, -, heq⟩ := mem_map.1 hm
    cases heq
  simp only [flow] at hm
  split at hm
  · split at hm <;> grind
  · next base field value haction =>
    split at hm
    · next hvalue =>
      rcases mem_append.1 hm with hm | hm
      · obtain ⟨stmt, -, heq⟩ := mem_map.1 hm
        cases heq
        exact ⟨base, hvalue ▸ haction⟩
      · exact absurd hm hsteps
    · exact absurd hm hsteps
  all_goals grind

theorem Backward.accesses_of_mem_movesOver {v : Local} {s : Statement}
    (hm : m ∈ Backward.movesOver v s) : m.target.stmt = s ∧ m.Accesses s.field? := by
  unfold Backward.movesOver at hm
  split at hm
  · next target value haction =>
    split at hm
    · split at hm
      · exact mem_singleton.1 hm ▸ ⟨rfl, trivial⟩
      · exact mem_singleton.1 hm ▸ ⟨rfl, trivial⟩
      · exact mem_singleton.1 hm ▸ ⟨rfl, trivial⟩
      · next base field =>
        exact mem_singleton.1 hm ▸
          ⟨rfl, by simp [Move.Accesses, Statement.field?, Action.field?, haction]⟩
      · cases hm
    · exact mem_singleton.1 hm ▸ ⟨rfl, trivial⟩
  · next base field value haction =>
    split at hm
    · rcases mem_cons.1 hm with rfl | hm
      · exact ⟨rfl, by simp [Move.Accesses, Statement.field?, Action.field?, haction]⟩
      · exact mem_singleton.1 hm ▸ ⟨rfl, trivial⟩
    · exact mem_singleton.1 hm ▸ ⟨rfl, trivial⟩
  · exact mem_singleton.1 hm ▸ ⟨rfl, trivial⟩

theorem Backward.accesses_of_mem_moves (hm : m ∈ (Backward.flow p n).moves) :
    m.target.stmt ∈ p.predecessors n.stmt ∧ m.Accesses m.target.stmt.field? := by
  unfold Backward.flow at hm
  split at hm
  · cases hm
  · obtain ⟨s, hs, hm⟩ := mem_flatMap.1 hm
    obtain ⟨rfl, haccesses⟩ := Backward.accesses_of_mem_movesOver hm
    exact ⟨hs, haccesses⟩

/-! ### Calls and effects -/

/-- Going forward, a value goes into the callees of the call it comes to. -/
theorem Forward.eq_of_mem_callSites (h : site ∈ (flow p seed n).callSites) :
    site = n.stmt ∧ n.stmt.isCall = true := by
  cases haction : n.stmt.action with
  | assign _ value =>
    cases value with
    | call =>
      simp only [flow, haction] at h
      exact ⟨mem_singleton.1 (List.mem_ite_nil_right.1 h).2,
        by simp [Statement.isCall, Statement.call?, haction]⟩
    | copy _ | alloc _ | const _ | load _ _ =>
      simp only [flow, haction] at h
      cases h
  | call =>
    simp only [flow, haction] at h
    exact ⟨mem_singleton.1 (List.mem_ite_nil_right.1 h).2,
      by simp [Statement.isCall, Statement.call?, haction]⟩
  | store =>
    simp only [flow, haction] at h
    split at h <;> cases h
  | ret _ | branch _ _ | jump _ | nop =>
    simp only [flow, haction] at h
    cases h

/-- Going backward, a value comes from the callees of a call before it. -/
theorem Backward.mem_predecessors_of_mem_callSites (h : site ∈ (Backward.flow p n).callSites) :
    site ∈ p.predecessors n.stmt ∧ site.isCall = true := by
  unfold Backward.flow at h
  split at h
  · cases h
  · obtain ⟨hmem, hresult⟩ := mem_filter.1 h
    exact ⟨hmem, (Bool.and_eq_true_iff.1 hresult).1⟩

/-- Going forward, a node only means something for other solvers where its local is
    written to a field. -/
theorem Forward.eq_writes_of_effect {e : Effect} (h : (flow p seed n).effect = some e) :
    ∃ base field, e = .writes base field ∧ n.stmt.action = .store base field n.var := by
  simp only [flow] at h
  split at h
  · split at h <;> cases h
  · next base field value hstore =>
    split at h
    · next hvar =>
      cases h
      exact ⟨base, field, rfl, by rw [hstore, hvar]⟩
    · cases h
  all_goals cases h

/-- Going backward, a node only means something for other solvers where a value is created
    in its local. -/
theorem Backward.eq_creates_of_effect {e : Effect} (h : (Backward.flow p n).effect = some e) :
    e = .creates ∧ n.stmt.allocates n.var = true := by
  unfold Backward.flow at h
  split at h
  · next hn =>
    cases h
    exact ⟨rfl, hn⟩
  · cases h

end Flow

/-- A value only crosses the call graph at a call, which it has come to or comes from. -/
theorem Program.isCall_of_mem_callSites {direction : Direction} {seed n : Node}
    (h : site ∈ (p.flow direction seed n).callSites) :
    site.isCall = true ∧ (site = n.stmt ∨ site ∈ p.predecessors n.stmt) := by
  cases direction with
  | forward =>
    obtain ⟨rfl, hcall⟩ := Flow.Forward.eq_of_mem_callSites h
    exact ⟨hcall, .inl rfl⟩
  | backward =>
    obtain ⟨hmem, hcall⟩ := Flow.Backward.mem_predecessors_of_mem_callSites h
    exact ⟨hcall, .inr hmem⟩

/-- A move over a statement stays in the method. -/
theorem Program.IsLaidOut.method_of_flow (h : p.IsLaidOut) {direction : Direction} {seed n : Node}
    (hm : m ∈ (p.flow direction seed n).moves) : m.target.stmt.method = n.stmt.method := by
  cases direction with
  | forward => exact h.method_of_mem_successors (Flow.Forward.accesses_of_mem_moves hm).1
  | backward => exact h.method_of_mem_predecessors (Flow.Backward.accesses_of_mem_moves hm).1

end DemandAlias
