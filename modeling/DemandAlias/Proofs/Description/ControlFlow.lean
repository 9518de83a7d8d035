import DemandAlias.Proofs.Description.Execution
import DemandAlias.Proofs.Description.Faults

/-!
# Control flow of resolved methods

The statements of a method are laid out from the instructions of its declaration, followed by a
return if control may fall off their end. So control never leaves the method, and what comes after
a statement can be found from either side.

* `MethodDecl.FallsOff`: control may fall off the end of the declaration;
* `MethodContext.targets_of_action`: statements go to the places after their instructions;
* `MethodContext.lt_size_of_mem_targets`: these are places of the method;
* `MethodContext.realizes_of_method`: so a method that is resolved is laid out as its declaration
  says (`Method.Realizes`).
-/

namespace DemandAlias

open Statement (targets index)

variable {s : Statement} {i : Instruction} {place : Nat}

/-! ### Instructions -/

/-- Control goes on to the next place unless the instruction leaves it, or to where it says. -/
theorem Instruction.mem_placesAfter {place after : Nat} :
    after ∈ i.placesAfter place ↔
      i.isExit = false ∧ after = place + 1 ∨ i.jumpTarget? = some after := by
  cases i <;> simp [placesAfter, isExit, jumpTarget?, eq_comm]

namespace MethodDecl

variable {m : MethodDecl}

/-- Control may fall off the end: there is nothing, or what is last neither returns nor jumps. -/
def FallsOff (m : MethodDecl) : Prop :=
  m.body = [] ∨ ∃ before last, m.body = before ++ [last] ∧
    (∀ value, last ≠ .ret value) ∧ ∀ target, last ≠ .jump target

theorem endsInExit_eq_false_iff : m.endsInExit = false ↔ m.FallsOff := by
  unfold endsInExit FallsOff
  rcases List.eq_nil_or_concat' m.body with hnil | ⟨before, last, hlast⟩
  · rw [hnil]
    exact iff_of_true rfl (.inl rfl)
  · rw [hlast, List.getLast?_concat]
    constructor
    · intro hexit
      refine .inr ⟨before, last, rfl, fun value heq => ?_, fun target heq => ?_⟩ <;>
        · rw [heq] at hexit
          cases hexit
    · rintro (hnil | ⟨before', last', heq, hret, hjump⟩)
      · exact absurd hnil (List.append_ne_nil_of_right_ne_nil _ (cons_ne_nil _ _))
      · obtain ⟨rfl, hsame⟩ := List.append_inj' heq rfl
        cases hsame
        cases last with
        | ret value => exact absurd rfl (hret value)
        | jump target => exact absurd rfl (hjump target)
        | _ => rfl

theorem length_instructions (m : MethodDecl) : m.instructions.length = m.length := by
  unfold instructions length
  split <;> simp

theorem length_pos (m : MethodDecl) : 0 < m.length := by
  unfold length
  split
  · next hexit =>
    refine List.length_pos_of_ne_nil fun hnil => ?_
    rw [endsInExit, hnil] at hexit
    cases hexit
  · exact Nat.succ_pos _

theorem getElem?_instructions (hi : m.body[place]? = some i) :
    m.instructions[place]? = some i := by
  unfold instructions
  split
  · exact hi
  · obtain ⟨hplace, -⟩ := List.getElem?_eq_some_iff.1 hi
    rwa [List.getElem?_append_left hplace]

theorem isExit_getLast (h : m.instructions.getLast? = some i) :
    i.isExit = true := by
  unfold instructions at h
  split at h
  · next hexit =>
    rw [endsInExit, h] at hexit
    exact hexit
  · rw [List.getLast?_concat] at h
    cases h
    rfl

/-- Where control goes on, there is a next place. -/
theorem succ_lt_length (hi : m.instructions[place]? = some i) (hexit : i.isExit = false) :
    place + 1 < m.length := by
  rw [← length_instructions]
  obtain ⟨hplace, -⟩ := List.getElem?_eq_some_iff.1 hi
  refine Nat.lt_of_le_of_ne hplace fun heq => ?_
  have hlast : m.instructions.getLast? = some i := by
    rw [List.getLast?_eq_getElem?, ← heq]
    exact hi
  rw [isExit_getLast hlast] at hexit
  cases hexit

end MethodDecl

/-! ### Statements -/

theorem Statement.nodup_targets (s : Statement) : s.targets.Nodup := by
  unfold targets
  split
  · exact nodup_nil
  · exact List.nodup_singleton _
  · split
    · exact List.nodup_singleton _
    · next hne => simpa using Ne.symm hne
  · exact List.nodup_singleton _

theorem Statement.targets_eq_nil_iff (s : Statement) : s.targets = [] ↔ s.isReturn = true := by
  unfold targets isReturn
  cases s.action with
  | branch => simp [apply_ite (· = [])]
  | _ => simp

namespace MethodContext

variable {ctx : MethodContext} {m : Method}

theorem targets_callAction {lhs : Option String} {callee : Callee} {args : List (Operand String)}
    (h : ctx.callAction lhs callee args = s.action) :
    s.targets = [s.index + 1] := by
  cases lhs <;> rw [targets, ← h] <;> rfl

/-- Whatever a virtual call comes to, control goes on after it. -/
theorem targets_virtualAction {lhs : Option String} {base name : String}
    {args : List (Operand String)} (h : ctx.virtualAction lhs base name args = s.action) :
    s.targets = [s.index + 1] := by
  unfold virtualAction at h
  dsimp only at h
  split at h
  · split at h
    · rw [targets, ← h]
    · exact targets_callAction h
  · split at h
    · split at h
      · rw [targets, ← h]
      · rw [targets, ← h]
      · exact targets_callAction h
    · exact targets_callAction h

/-- A statement goes to the places after its instruction, each of them once. -/
theorem targets_of_action (h : ctx.action i = .ok s.action) :
    s.targets = (i.placesAfter s.index).eraseDups := by
  cases i with
  | call =>
    simp only [action] at h
    split at h
    · exact targets_callAction (Except.ok.inj h)
    · cases h
  | virtualCall => exact targets_virtualAction (Except.ok.inj h)
  | branch _ _ _ target =>
    simp only [action, checkTarget] at h
    split at h
    · rw [targets, ← Except.ok.inj h]
      by_cases heq : target = s.index + 1
      · simp [Instruction.placesAfter, List.eraseDups_cons, heq]
      · simp [Instruction.placesAfter, List.eraseDups_cons, heq]
    · cases h
  | jump =>
    simp only [action, checkTarget] at h
    split at h
    · rw [targets, ← Except.ok.inj h]
      rfl
    · cases h
  | _ => rw [targets, ← Except.ok.inj h]; rfl

theorem size_body_of_method (h : ctx.method = .ok m) : m.body.size = ctx.decl.length := by
  obtain ⟨actions, rfl, hall⟩ := exists_of_method h
  rw [← MethodDecl.length_instructions, hall.length_eq]
  simp [Method.ofActions]

/-- Control never leaves the places of the method. -/
theorem lt_size_of_mem_targets (h : ctx.method = .ok m) (hs : s ∈ m.body) {after : Nat}
    (hafter : after ∈ s.targets) : after < m.body.size := by
  have hlaid := isLaidOut_of_method h
  obtain ⟨i, hi, haction⟩ := exists_instruction_of_method h (hlaid.getElem?_of_mem hs)
  rw [targets_of_action haction, mem_eraseDups, Instruction.mem_placesAfter] at hafter
  rw [size_body_of_method h]
  rcases hafter with ⟨hexit, rfl⟩ | htarget
  · exact MethodDecl.succ_lt_length hi hexit
  · exact (wellFormed_of_action haction).2 after htarget

end MethodContext

/-! ### Methods -/

namespace Method.IsLaidOut

variable {m : Method}

variable (h : m.IsLaidOut)
include h

theorem size_succs : m.succs.size = m.body.size := by
  obtain ⟨name, receiver, params, actions, rfl⟩ := h
  simp [ofActions]

theorem size_preds : m.preds.size = m.body.size := by
  obtain ⟨name, receiver, params, actions, rfl⟩ := h
  simp [ofActions]

theorem successors_eq (hs : s ∈ m.body) :
    m.successors s = s.targets.filterMap (m.body[·]?) := by
  rw [successors, Array.getD_eq_getD_getElem?, h.getElem?_succs, h.getElem?_of_mem hs]
  rfl

section

variable (hs : s ∈ m.body) (hbounded : ∀ after ∈ s.targets, after < m.body.size)
include hs hbounded

/-- If control stays in the method, there is a statement wherever it goes. -/
theorem map_some_successors : (m.successors s).map some = s.targets.map (m.body[·]?) := by
  rw [h.successors_eq hs, List.map_filterMap, ← List.filterMap_eq_map]
  refine List.filterMap_congr fun after hafter => ?_
  rw [Function.comp_apply, Array.getElem?_eq_getElem (hbounded after hafter)]
  rfl

theorem map_index_successors : (m.successors s).map index = s.targets := by
  rw [h.successors_eq hs, List.map_filterMap]
  refine (List.filterMap_congr fun after hafter => ?_).trans List.filterMap_some
  have hafter := Array.getElem?_eq_getElem (hbounded after hafter)
  rw [hafter, map_some, (h.index_of_getElem? hafter).1]

end

theorem predecessors_sublist (t : Statement) : (m.predecessors t).Sublist m.body.toList := by
  rw [predecessors, Array.getD_eq_getD_getElem?, h.getElem?_preds]
  split
  · exact List.filter_sublist
  · exact List.nil_sublist _

end Method.IsLaidOut

/-- The method is laid out as its declaration says. -/
structure Method.Realizes (m : Method) (ctx : MethodContext) : Prop where
  /-- There is something to run. -/
  nonempty : 0 < m.body.size
  /-- Every statement stands at its place in this method. -/
  stands : ∀ {place : Nat} {s : Statement}, m.body[place]? = some s →
    s.index = place ∧ s.method = ctx.name
  /-- Every instruction has its statement. -/
  does : ∀ {place : Nat} {i : Instruction}, ctx.decl.body[place]? = some i →
    ∃ s, m.body[place]? = some s ∧ ctx.action i = .ok s.action
  /-- After these there is a return exactly if control may fall off the end, and nothing else. -/
  ends : ctx.decl.FallsOff ∧ m.body.size = ctx.decl.body.length + 1 ∧
      (∃ s, m.body[ctx.decl.body.length]? = some s ∧ s.action = .ret none) ∨
    ¬ctx.decl.FallsOff ∧ m.body.size = ctx.decl.body.length
  /-- It is known for each place what comes after it and before it. -/
  sizes : m.succs.size = m.body.size ∧ m.preds.size = m.body.size
  /-- Control stays in the method. -/
  bounded : ∀ s ∈ m.body, ∀ after ∈ s.targets, after < m.body.size
  /-- A statement is followed by those at the places after its instruction, each of them once. -/
  successors : ∀ {place : Nat} {i : Instruction} {s : Statement}, ctx.decl.body[place]? = some i →
    m.body[place]? = some s →
    (m.successors s).map some = (i.placesAfter place).eraseDups.map (m.body[·]?)
  successors_nodup : ∀ s ∈ m.body, (m.successors s).Nodup
  /-- Nothing follows a return, and something everything else. -/
  successors_eq_nil_iff : ∀ s ∈ m.body, m.successors s = [] ↔ s.isReturn = true
  /-- A statement is preceded by those that it follows. -/
  mem_predecessors_iff : ∀ t ∈ m.body, ∀ s, s ∈ m.predecessors t ↔ s ∈ m.body ∧ t ∈ m.successors s
  /-- These are in the order of their places, each of them once. -/
  predecessors : ∀ t, (m.predecessors t).Pairwise fun s s' => s.index < s'.index
  /-- The exits are the returns, in the order of their places. -/
  mem_exits_iff : ∀ s, s ∈ m.exits ↔ s ∈ m.body ∧ s.isReturn = true
  exits : m.exits.Pairwise fun s s' => s.index < s'.index

namespace MethodContext

variable {ctx : MethodContext} {m : Method}

/-- There is one statement more than instructions, a return, exactly if control may fall off the
    end. -/
theorem ends_of_method (h : ctx.method = .ok m) :
    ctx.decl.FallsOff ∧ m.body.size = ctx.decl.body.length + 1 ∧
      (∃ s, m.body[ctx.decl.body.length]? = some s ∧ s.action = .ret none) ∨
    ¬ctx.decl.FallsOff ∧ m.body.size = ctx.decl.body.length := by
  have hsize := size_body_of_method h
  rw [MethodDecl.length] at hsize
  cases hexit : ctx.decl.endsInExit with
  | false =>
    rw [hexit, if_neg Bool.false_ne_true] at hsize
    refine .inl ⟨MethodDecl.endsInExit_eq_false_iff.1 hexit, hsize, ?_⟩
    have hs := Array.getElem?_eq_getElem (Nat.lt_of_lt_of_eq (Nat.lt_succ_self _) hsize.symm)
    obtain ⟨i, hi, haction⟩ := exists_instruction_of_method h hs
    have hlast : ctx.decl.instructions[ctx.decl.body.length]? = some (.ret none) := by
      rw [MethodDecl.instructions, hexit]
      exact List.getElem?_concat_length
    cases hlast.symm.trans hi
    exact ⟨_, hs, (Except.ok.inj haction).symm⟩
  | true =>
    rw [hexit, if_pos rfl] at hsize
    refine .inr ⟨fun hfalls => ?_, hsize⟩
    rw [MethodDecl.endsInExit_eq_false_iff.2 hfalls] at hexit
    cases hexit

/-- A statement does what the instruction at its place says. -/
theorem action_at_of_method (h : ctx.method = .ok m) (hi : ctx.decl.body[place]? = some i)
    (hs : m.body[place]? = some s) :
    ctx.action i = .ok s.action := by
  obtain ⟨i', hi', haction⟩ := exists_instruction_of_method h hs
  cases (MethodDecl.getElem?_instructions hi).symm.trans hi'
  exact haction

theorem exists_statement_of_method (h : ctx.method = .ok m) (hi : ctx.decl.body[place]? = some i) :
    ∃ s, m.body[place]? = some s := by
  obtain ⟨hplace, -⟩ := List.getElem?_eq_some_iff.1 (MethodDecl.getElem?_instructions hi)
  rw [MethodDecl.length_instructions, ← size_body_of_method h] at hplace
  exact ⟨_, Array.getElem?_eq_getElem hplace⟩

/-- A method that is resolved is laid out as its declaration says. -/
theorem realizes_of_method (h : ctx.method = .ok m) : m.Realizes ctx := by
  have hlaid := isLaidOut_of_method h
  have hbounded : ∀ s ∈ m.body, ∀ after ∈ s.targets, after < m.body.size :=
    fun s hs after hafter => lt_size_of_mem_targets h hs hafter
  exact {
    nonempty := by
      rw [size_body_of_method h]
      exact ctx.decl.length_pos
    stands := fun hs => by
      rw [← name_of_method h]
      exact hlaid.index_of_getElem? hs
    does := fun hi => by
      obtain ⟨s, hs⟩ := exists_statement_of_method h hi
      exact ⟨s, hs, action_at_of_method h hi hs⟩
    ends := ends_of_method h
    sizes := ⟨hlaid.size_succs, hlaid.size_preds⟩
    bounded := hbounded
    successors := fun {place i s} hi hs => by
      have hmem := Array.mem_of_getElem? hs
      rw [hlaid.map_some_successors hmem (hbounded s hmem),
        targets_of_action (action_at_of_method h hi hs), (hlaid.index_of_getElem? hs).1]
    successors_nodup := fun s hs => by
      refine List.Nodup.of_map Statement.index ?_
      rw [hlaid.map_index_successors hs (hbounded s hs)]
      exact s.nodup_targets
    successors_eq_nil_iff := fun s hs => by
      rw [← s.targets_eq_nil_iff, ← hlaid.map_index_successors hs (hbounded s hs),
        List.map_eq_nil_iff]
    -- Both sides say that the statement names the place of the other.
    mem_predecessors_iff := fun t ht s => by
      rw [hlaid.mem_predecessors_iff ht]
      refine and_congr_right fun hs => ?_
      rw [hlaid.mem_successors_iff hs]
      exact (and_iff_right ht).symm
    predecessors := fun t => hlaid.increasing_body.sublist (hlaid.predecessors_sublist t)
    mem_exits_iff := fun s => by rw [Method.exits, mem_filter, Array.mem_toList_iff]
    exits := hlaid.increasing_body.filter _ }

end MethodContext

namespace Circuit

/-- A method that tests something without going anywhere else, and then goes round until a test
    at its end lets control fall off. -/
def context : MethodContext where
  decl := {
    name := "Main.main"
    params := ["x"]
    body := [.branch "x" .eq (.const .null) 1, .load "x" "x" "next",
      .branch "x" .ne (.const .null) 0] }
  results := []
  putWritesMap := true
  getReadsMap := true

def x : Local := ⟨⟨"Main.main"⟩, "x"⟩

def method : Method :=
  .ofActions ⟨"Main.main"⟩ none [x] [.branch ⟨x, .eq, .const .null⟩ 1,
    .assign x (.load x (.named "next")), .branch ⟨x, .ne, .const .null⟩ 0, .ret none]

end Circuit

/-- The first test leads to the next statement only, and the last one to the return that is added
    or to the first one. -/
theorem MethodContext.realizes_circuit : Circuit.context.method = .ok Circuit.method ∧
    Circuit.method.Realizes Circuit.context ∧
    (Circuit.method.body.toList.map fun s => (Circuit.method.successors s).map Statement.index) =
      [[1], [2], [3, 0], []] ∧
    (Circuit.method.body.toList.map fun s => (Circuit.method.predecessors s).map Statement.index) =
      [[2], [0], [1], [2]] := by
  have h : Circuit.context.method = .ok Circuit.method := rfl
  exact ⟨h, realizes_of_method h, by decide +kernel⟩

end DemandAlias
