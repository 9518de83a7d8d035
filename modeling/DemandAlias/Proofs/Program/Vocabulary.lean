import DemandAlias.Proofs.Program.Flow
import DemandAlias.Solver.Crossing

/-!
# The vocabulary of a program

An analysis speaks of the statements of a program, of the locals that its methods have,
and of the fields they access; the query may bring in one more local. Moves stay within
this vocabulary, whether they lead over a statement (`hasMove_of_flow`) or along an edge of
the call graph (`hasMove_of_crossing`). Since it is finite, there is only so much an
analysis can find.
-/

namespace DemandAlias

open List (mem_ite_nil_right)
open Flow.Forward (flow returnedTo intoCallee toCaller)

variable {m : Move} {scope : Scope}

variable {s : Statement} {c : Call} {v : Local} {p p' : Program} {e : CallEdge} {x : Crossing}
  {f : Field} {seed : Node}

/-! ### Locals -/

/-- The locals that a call passes. -/
def Call.locals (c : Call) : List Local := c.receiver?.toList ++ c.args.filterMap Operand.var?

/-- The locals that a statement moves values from or to. -/
def Statement.locals (s : Statement) : List Local :=
  match s.action with
  | .assign target (.copy source) => [target, source]
  | .assign target (.load base _) => [target, base]
  | .assign target (.call c) => target :: c.locals
  | .assign target (.alloc _) | .assign target (.const _) => [target]
  | .store base _ value => [base, value]
  | .call c => c.locals
  | .ret (some (.var v)) => [v]
  | _ => []

/-- The locals of a method. -/
def Method.locals (m : Method) : List Local :=
  m.params ++ m.receiver.toList ++ m.body.toList.flatMap Statement.locals

/-- The fields that the statements of a program access. -/
def Program.fields (p : Program) : List Field := p.statements.filterMap Statement.field?

/-- A statement of the program writes to the field. -/
def Program.Writes (p : Program) (f : Field) : Prop :=
  ∃ s ∈ p.statements, ∃ base value, s.action = .store base f value

/-- The methods of `p'` are laid out and are methods of `p`. -/
structure Program.Spans (p p' : Program) : Prop where
  isLaidOut : p'.IsLaidOut
  methods : p'.methods ⊆ p.methods

theorem Program.IsLaidOut.spans (h : p.IsLaidOut) : p.Spans p := ⟨h, fun _ hm => hm⟩

theorem Program.Spans.statements (h : p.Spans p') : p'.statements ⊆ p.statements := fun s hs =>
  (p.mem_statements_iff s).2 (((p'.mem_statements_iff s).1 hs).imp fun _ => .imp_left (h.methods ·))

/-- With one more method, a program has any statement. -/
theorem Program.IsLaidOut.exists_spans (h : p.IsLaidOut) (s : Statement) :
    ∃ p' : Program, p'.Spans p ∧ s ∈ p'.statements := by
  let m : Method := { (default : Method) with body := #[s] }
  refine ⟨{ p with methods := m :: p.methods }, ⟨h, fun _ => mem_cons_of_mem m⟩, ?_⟩
  exact (mem_statements_iff _ s).2 ⟨m, mem_cons_self, by simp [m]⟩

theorem Program.mem_fields (hs : s ∈ p.statements) (hf : s.field? = some f) :
    f ∈ p.fields := mem_filterMap.2 ⟨s, hs, hf⟩

theorem Program.FieldsNamed.ne_epsilon (h : p.FieldsNamed) (hf : f ∈ p.fields) : f ≠ .epsilon := by
  obtain ⟨s, hs, hfield⟩ := mem_filterMap.1 hf
  exact fun heq => h s hs (heq ▸ hfield)

theorem Statement.locals_of_call? (h : s.call? = some c) : c.locals ⊆ s.locals := by
  unfold call? at h
  unfold locals
  split at h
  · next haction =>
    cases h
    simp [haction]
  · next haction =>
    cases h
    simp [haction]
  · cases h

theorem Statement.mem_locals_of_defined? (h : s.defined? = some v) : v ∈ s.locals := by
  unfold defined? at h
  split at h
  · next target value haction =>
    cases h
    unfold locals
    cases value <;> simp [haction]
  · cases h

theorem Call.mem_locals_of_receiver? (h : c.receiver? = some v) :
    v ∈ c.locals := mem_append_left _ (mem_toList.2 h)

/-! ### Methods and their locals -/

namespace MethodContext

variable {ctx : MethodContext}

theorem method_of_operand {o : Operand String} {v : Local} (h : (ctx.operand o).var? = some v) :
    v.method = ctx.name := by
  cases o with
  | var =>
    cases h
    rfl
  | const => cases h

theorem method_of_callAction {lhs : Option String} {callee : Callee} {args : List (Operand String)}
    (h : s.action = ctx.callAction lhs callee args)
    (hcallee : ∀ receiver name, callee = .virtual receiver name → receiver.method = ctx.name) :
    ∀ v ∈ s.locals, v.method = ctx.name := by
  have hcall : ∀ v ∈ ({ callee, args := args.map ctx.operand } : Call).locals,
      v.method = ctx.name := by
    intro v hv
    rcases mem_append.1 hv with hv | hv
    · cases callee with
      | static => cases hv
      | virtual receiver name =>
        rw [mem_singleton.1 hv]
        exact hcallee receiver name rfl
    · obtain ⟨o, ho, hvar⟩ := mem_filterMap.1 hv
      obtain ⟨o', -, rfl⟩ := mem_map.1 ho
      exact method_of_operand hvar
  intro v hv
  unfold Statement.locals at hv
  cases lhs with
  | none =>
    rw [h] at hv
    exact hcall v hv
  | some =>
    rw [h] at hv
    rcases mem_cons.1 hv with rfl | hv
    · rfl
    · exact hcall v hv

theorem method_of_virtualAction {lhs : Option String} {base name : String}
    {args : List (Operand String)} (h : s.action = ctx.virtualAction lhs base name args) :
    ∀ v ∈ s.locals, v.method = ctx.name := by
  have hcall : s.action = ctx.callAction lhs (.virtual (ctx.localNamed base) name) args →
      ∀ v ∈ s.locals, v.method = ctx.name := fun h =>
    method_of_callAction h fun receiver name heq => by
      cases heq
      rfl
  -- What is not a call is a store or a load of the field of a map.
  have hpair : ∀ {a b : String}, s.locals = [ctx.localNamed a, ctx.localNamed b] →
      ∀ v ∈ s.locals, v.method = ctx.name := by
    intro a b heq v hv
    simp only [heq, mem_cons, not_mem_nil, or_false] at hv
    rcases hv with rfl | rfl <;> rfl
  unfold virtualAction at h
  dsimp only at h
  split at h
  · split at h
    · exact hpair (by rw [Statement.locals, h])
    · exact hcall h
  · split at h
    · split at h
      · exact hpair (by rw [Statement.locals, h])
      · intro v hv
        rw [Statement.locals, h] at hv
        cases hv
      · exact hcall h
    · exact hcall h

/-- The locals of what an instruction does are locals of the method. -/
theorem method_of_action {i : Instruction} (h : ctx.action i = .ok s.action) :
    ∀ v ∈ s.locals, v.method = ctx.name := by
  generalize ha : s.action = a at h
  cases i with
  | call =>
    simp only [action] at h
    split at h
    · cases h
      exact method_of_callAction ha fun _ _ heq => by cases heq
    · cases h
  | virtualCall =>
    cases h
    exact method_of_virtualAction ha
  | branch lhs comparison rhs target | jump target =>
    simp only [action, bind, Except.bind] at h
    split at h
    · cases h
    · cases h
      intro v hv
      rw [Statement.locals, ha] at hv
      cases hv
  | ret value =>
    cases h
    intro v hv
    rcases value with _ | _ | _ <;> rw [Statement.locals, ha] at hv
    · cases hv
    · rw [mem_singleton.1 hv]
      rfl
    · cases hv
  | new _ _ | const _ _ =>
    cases h
    intro v hv
    rw [Statement.locals, ha] at hv
    rw [mem_singleton.1 hv]
    rfl
  | copy _ _ | load _ _ _ | store _ _ _ =>
    cases h
    intro v hv
    rw [Statement.locals, ha] at hv
    simp only [mem_cons, not_mem_nil, or_false] at hv
    rcases hv with rfl | rfl <;> rfl
  | nop =>
    cases h
    intro v hv
    rw [Statement.locals, ha] at hv
    cases hv

end MethodContext

/-- The locals of each method are its own. -/
def Program.LocalsOwned (p : Program) : Prop := ∀ m ∈ p.methods, ∀ v ∈ m.locals, v.method = m.name

/-- In a program that a description describes, the locals of each method are its own. -/
theorem Description.localsOwned_of_resolve {d : Description} (h : d.resolve = .ok p) :
    p.LocalsOwned := by
  refine forall_of_resolve (fun {ctx m} hm => ?_) h
  have hbody : ∀ s ∈ m.body, ∀ v ∈ s.locals, v.method = ctx.name := by
    intro s hs
    exact MethodContext.action_of_method
      (P := fun a => ∀ s : Statement, s.action = a → ∀ v ∈ s.locals, v.method = ctx.name)
      (fun hi s ha => MethodContext.method_of_action (ha ▸ hi)) hm s hs s rfl
  obtain ⟨actions, rfl, -⟩ := MethodContext.exists_of_method hm
  intro v hv
  simp only [Method.locals, mem_append, mem_flatMap, mem_toList] at hv
  rcases hv with (hv | hv) | ⟨s, hs, hv⟩
  · obtain ⟨name, -, rfl⟩ := mem_map.1 hv
    rfl
  · obtain ⟨name, -, rfl⟩ := map_eq_some_iff.1 hv
    rfl
  · exact hbody s (Array.mem_toList_iff.1 hs) v hv

/-! ### Edges -/

/-- The move follows the edge `e`: into a method where it starts or, going backward, where it
    returns, and out of it to after the call or, going backward, to what is passed. -/
inductive Crossing.Follows (p : Program) (scope : Scope) (e : CallEdge) :
    Direction → Crossing → Move → Prop
  | enter {site start : Statement} {callee : Method} {c : Call} {v : Local}
      (hcallee : p.method? e.callee = some callee) (hscope : scope.excludes e.callee = false)
      (hcall : e.site.call? = some c) (hstart : callee.start? = some start)
      (hv : v ∈ callee.params ++ callee.receiver.toList) :
    Follows p scope e .forward (.into site) (.push ⟨start, v⟩ (.call e.site))
  | enterResult {site exit : Statement} {callee : Method} {v : Local}
      (hcallee : p.method? e.callee = some callee) (hscope : scope.excludes e.callee = false)
      (hexit : exit ∈ callee.exits) (haction : exit.action = .ret (some (.var v))) :
    Follows p scope e .backward (.into site) (.push ⟨exit, v⟩ (.call e.site))
  | leave {m : MethodName} {stmt : Statement} {c : Call} {v : Local}
      (hscope : scope.excludes e.site.method = false) (hcall : e.site.call? = some c)
      (hstmt : stmt ∈ p.successors e.site) (hv : v ∈ e.site.locals) :
    Follows p scope e .forward (.outOf m) (.pop ⟨stmt, v⟩ (.call e.site))
  | leaveStart {m : MethodName} {c : Call} {v : Local}
      (hscope : scope.excludes e.site.method = false) (hcall : e.site.call? = some c)
      (hv : v ∈ e.site.locals) :
    Follows p scope e .backward (.outOf m) (.pop ⟨e.site, v⟩ (.call e.site))

theorem Statement.mem_locals_of_passed (hcall : s.call? = some c) {callee : Method} {u : Local}
    (hu : u ∈ ((callee.paramIndex? v).bind c.argument?).toList ++
      (if callee.isReceiver v then c.receiver? else none).toList) : u ∈ s.locals := by
  refine locals_of_call? hcall ?_
  rcases mem_append.1 hu with hu | hu
  · obtain ⟨i, -, hi⟩ := bind_eq_some_iff.1 (mem_toList.1 hu)
    obtain ⟨a, ha, hvar⟩ := bind_eq_some_iff.1 hi
    exact mem_append_right _ (mem_filterMap.2 ⟨a, List.mem_of_getElem? ha, hvar⟩)
  · split at hu
    · exact Call.mem_locals_of_receiver? (mem_toList.1 hu)
    · cases hu

theorem Statement.mem_locals_of_returnedTo (hcall : s.call? = some c) {n : Node} {callee : Method}
    (hv : v ∈ returnedTo n callee s c) : v ∈ s.locals := by
  rcases mem_append.1 hv with hv | hv
  · -- The result goes to the local the call is assigned to.
    split at hv
    · split at hv
      · exact mem_locals_of_defined? (mem_toList.1 hv)
      · cases hv
    · cases hv
  · exact mem_locals_of_passed hcall (mem_filter.1 hv).1

theorem Crossing.follows_of_mem {direction : Direction} {n : Node}
    (hm : m ∈ x.moves p scope direction n e) : Crossing.Follows p scope e direction x m := by
  unfold moves at hm
  split at hm
  · cases hm
  · next callee hcallee =>
    -- Into a callee or out of it, forward or backward.
    split at hm <;> split at hm <;> try cases hm
    · next hscope =>
      unfold intoCallee at hm
      split at hm
      · next c start hcall hstart =>
        obtain ⟨v, hv, rfl⟩ := mem_map.1 hm
        refine .enter hcallee (eq_false_iff.2 hscope) hcall hstart
          (mem_append.2 ((mem_append.1 hv).imp ?_ ?_))
        · intro hv
          obtain ⟨i, -, hi⟩ := mem_filterMap.1 hv
          exact List.mem_of_getElem? hi
        · intro hv
          exact (mem_ite_nil_right.1 hv).2
      · cases hm
    · next hscope =>
      obtain ⟨exit, hexit, hm⟩ := mem_filterMap.1 hm
      split at hm
      · next v haction =>
        cases hm
        exact .enterResult hcallee (eq_false_iff.2 hscope) hexit haction
      · cases hm
    · next hscope =>
      unfold toCaller at hm
      split at hm
      · cases hm
      · next c hcall =>
        obtain ⟨stmt, hstmt, hm⟩ := mem_flatMap.1 hm
        obtain ⟨v, hv, rfl⟩ := mem_map.1 hm
        exact .leave (eq_false_iff.2 hscope) hcall hstmt
          (Statement.mem_locals_of_returnedTo hcall hv)
    · next hscope =>
      unfold Flow.Backward.toCaller at hm
      split at hm
      · cases hm
      · next c hcall =>
        obtain ⟨v, hv, rfl⟩ := mem_map.1 hm
        exact .leaveStart (eq_false_iff.2 hscope) hcall
          (Statement.mem_locals_of_passed hcall hv)

/-! ### Vocabularies -/

/-- Locals enough to speak of what the program does. -/
structure Vocabulary (p : Program) where
  locals : List Local
  covers : ∀ m ∈ p.methods, m.locals ⊆ locals

namespace Vocabulary

variable (V : Vocabulary p)
variable {n : Node} {direction : Direction}

/-- The locals of a program, with one that is asked about. -/
def asking (p : Program) (v : Local) : Vocabulary p where
  locals := v :: p.methods.flatMap Method.locals
  covers m hm _ hu := mem_cons_of_mem _ (mem_flatMap.2 ⟨m, hm, hu⟩)

/-- The node is one of the program, with a local of the vocabulary. -/
def HasNode (n : Node) : Prop := n.stmt ∈ p.statements ∧ n.var ∈ V.locals

/-- The symbol is a call site or a field of the program. -/
def HasSymbol (_ : Vocabulary p) : StackSymbol → Prop
  | .call site => site ∈ p.statements
  | .field f => f ∈ p.fields

def HasMove : Move → Prop
  | .step n => V.HasNode n
  | .push n symbol | .pop n symbol => V.HasNode n ∧ V.HasSymbol symbol

variable {V}

theorem mem_locals_of_statement (hs : s ∈ p.statements) : s.locals ⊆ V.locals := by
  obtain ⟨m, hm, hs⟩ := (p.mem_statements_iff s).1 hs
  refine fun v hv => V.covers m hm (mem_append_right _ ?_)
  exact mem_flatMap.2 ⟨s, Array.mem_toList_iff.2 hs, hv⟩

/-! ### Moves over a statement -/

theorem hasMove_of_accesses (hs : s ∈ p.statements) (htarget : V.HasNode m.target)
    (h : m.Accesses s.field?) : V.HasMove m := by
  rcases m with n | ⟨n, site | f⟩ | ⟨n, site | f⟩
  · exact htarget
  · exact h.elim
  · exact ⟨htarget, Program.mem_fields hs h⟩
  · exact h.elim
  · exact ⟨htarget, Program.mem_fields hs h⟩

theorem var_of_mem_forward (hm : m ∈ (flow p seed n).moves) :
    m.target.var = n.var ∨ m.target.var ∈ n.stmt.locals := by
  -- All moves are to the local of the node, or to one the statement names.
  have hstays : ∀ {stmts : List Statement}, m ∈ stepsTo stmts n.var →
      m.target.var = n.var ∨ m.target.var ∈ n.stmt.locals := fun hm => by
    obtain ⟨stmt, -, rfl⟩ := mem_map.1 hm
    exact .inl rfl
  have hkeeps : ∀ {stmts : List Statement} {P : Prop} [Decidable P],
      m ∈ (if P then stepsTo stmts n.var else []) →
      m.target.var = n.var ∨ m.target.var ∈ n.stmt.locals := fun hm =>
    hstays (mem_ite_nil_right.1 hm).2
  cases haction : n.stmt.action with
  | assign target value =>
    cases value with
    | copy _ | load _ _ =>
      simp only [flow, haction, mem_append] at hm
      refine hm.elim (fun hm => ?_) hkeeps
      obtain ⟨-, hm⟩ := mem_ite_nil_right.1 hm
      obtain ⟨stmt, -, rfl⟩ := mem_map.1 hm
      exact .inr (by simp [Statement.locals, haction, Move.target])
    | alloc _ | const _ | call _ =>
      simp only [flow, haction] at hm
      exact hkeeps hm
  | store =>
    simp only [flow, haction] at hm
    split at hm
    · rcases mem_append.1 hm with hm | hm
      · obtain ⟨stmt, -, rfl⟩ := mem_map.1 hm
        exact .inr (by simp [Statement.locals, haction, Move.target])
      · exact hstays hm
    · exact hstays hm
  | ret =>
    simp only [flow, haction] at hm
    cases hm
  | call _ | branch _ _ | jump _ | nop =>
    simp only [flow, haction] at hm
    exact hstays hm

theorem var_of_mem_movesOver {v : Local} (hm : m ∈ Flow.Backward.movesOver v s) :
    m.target.var = v ∨ m.target.var ∈ s.locals := by
  unfold Flow.Backward.movesOver at hm
  split at hm
  · next target value haction =>
    split at hm
    · split at hm
      · exact mem_singleton.1 hm ▸ .inr (by simp [Statement.locals, haction, Move.target])
      · exact mem_singleton.1 hm ▸ .inl rfl
      · exact mem_singleton.1 hm ▸ .inl rfl
      · exact mem_singleton.1 hm ▸ .inr (by simp [Statement.locals, haction, Move.target])
      · cases hm
    · exact mem_singleton.1 hm ▸ .inl rfl
  · next base field value haction =>
    split at hm
    · rcases mem_cons.1 hm with rfl | hm
      · exact .inr (by simp [Statement.locals, haction, Move.target])
      · exact mem_singleton.1 hm ▸ .inl rfl
    · exact mem_singleton.1 hm ▸ .inl rfl
  · exact mem_singleton.1 hm ▸ .inl rfl

section

variable (hp : p.Spans p')
include hp

/-- Moves over a statement stay within the vocabulary. -/
theorem hasMove_of_flow (hn : V.HasNode n)
    (hm : m ∈ (p'.flow direction seed n).moves) : V.HasMove m := by
  cases direction with
  | forward =>
    obtain ⟨htarget, haccesses⟩ := Flow.Forward.accesses_of_mem_moves hm
    refine hasMove_of_accesses hn.1 ⟨hp.statements
      (hp.isLaidOut.mem_statements_of_mem_successors htarget), ?_⟩ haccesses
    rcases var_of_mem_forward hm with heq | hmem
    · rw [heq]
      exact hn.2
    · exact mem_locals_of_statement hn.1 hmem
  | backward =>
    obtain ⟨htarget, haccesses⟩ := Flow.Backward.accesses_of_mem_moves hm
    have hstmt := hp.statements (hp.isLaidOut.mem_statements_of_mem_predecessors htarget)
    refine hasMove_of_accesses hstmt ⟨hstmt, ?_⟩ haccesses
    simp only [Program.flow, Flow.Backward.flow] at hm
    split at hm
    · cases hm
    · obtain ⟨s, hs, hm⟩ := mem_flatMap.1 hm
      rw [(Flow.Backward.accesses_of_mem_movesOver hm).1] at hstmt
      rcases var_of_mem_movesOver hm with heq | hmem
      · rw [heq]
        exact hn.2
      · exact mem_locals_of_statement hstmt hmem

/-! ### Moves along an edge -/

/-- Moves along an edge from a call site of the program stay within the vocabulary. -/
theorem hasMove_of_crossing (hsite : e.site ∈ p.statements)
    (hm : m ∈ x.moves p' scope direction n e) : V.HasMove m := by
  cases Crossing.follows_of_mem hm with
  | enter hcallee _ _ hstart hvar =>
    exact ⟨⟨hp.statements (Program.mem_statements_of_start? hcallee hstart),
      V.covers _ (hp.methods (Program.mem_methods_of_method? hcallee)) (mem_append_left _ hvar)⟩,
      hsite⟩
  | enterResult hcallee _ hexit haction =>
    have hstmt := hp.statements (hp.isLaidOut.places_of_mem_exits hcallee hexit).1.mem_statements
    exact ⟨⟨hstmt, mem_locals_of_statement hstmt (by simp [Statement.locals, haction])⟩, hsite⟩
  | leave _ _ hstmt hvar =>
    exact ⟨⟨hp.statements (hp.isLaidOut.mem_statements_of_mem_successors hstmt),
      mem_locals_of_statement hsite hvar⟩, hsite⟩
  | leaveStart _ _ hvar => exact ⟨⟨hsite, mem_locals_of_statement hsite hvar⟩, hsite⟩

end

theorem not_field_of_crossing {target : Node} :
    .push target (.field f) ∉ x.moves p scope direction n e :=
  fun hm => by cases Crossing.follows_of_mem hm

/-! ### Calls and stores -/

/-- A store is to a local and a field of the vocabulary, and so is what it writes. -/
theorem mem_of_store (hs : s ∈ p.statements) {base value : Local} {field : Field}
    (haction : s.action = .store base field value) :
    base ∈ V.locals ∧ value ∈ V.locals ∧ field ∈ p.fields := by
  have hlocals : s.locals = [base, value] := by simp [Statement.locals, haction]
  refine ⟨mem_locals_of_statement hs ?_, mem_locals_of_statement hs ?_, Program.mem_fields hs ?_⟩
  · simp [hlocals]
  · simp [hlocals]
  · simp [Statement.field?, Action.field?, haction]

end Vocabulary

end DemandAlias
