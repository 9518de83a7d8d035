import DemandAlias.Description.Resolve
import Mathlib.Data.List.Forall2

/-!
# Programs laid out from descriptions

Each method of a program that a description describes is laid out from a list of
actions: every statement stands at its place, and the statements that may run after and
before each other are statements of the body, as their actions say
(`Description.isLaidOut_of_resolve`).
-/

namespace DemandAlias

variable {d : Description} {p : Program}
variable {context : MethodDecl → MethodContext} {seen : List String} {decls : List MethodDecl}
  {ms : List Method}

/-! ### Methods -/

/-- The method is laid out from a list of actions. -/
def Method.IsLaidOut (m : Method) : Prop :=
  ∃ name receiver params actions, m = .ofActions name receiver params actions

namespace Method

theorem getElem?_body_ofActions (name : MethodName) (receiver : Option Local)
    (params : List Local) (actions : List Action) (i : Nat) :
    (ofActions name receiver params actions).body[i]? =
      actions[i]?.map fun action => ⟨name, i, action⟩ := by
  simp [ofActions, Function.comp_def]

namespace IsLaidOut

variable {m : Method}
variable {s t : Statement}

variable (h : m.IsLaidOut)
include h

/-- A statement stands at its place. -/
theorem index_of_getElem? {i : Nat} (hs : m.body[i]? = some s) :
    s.index = i ∧ s.method = m.name := by
  obtain ⟨name, receiver, params, actions, rfl⟩ := h
  rw [getElem?_body_ofActions] at hs
  obtain ⟨action, -, rfl⟩ := map_eq_some_iff.1 hs
  exact ⟨rfl, rfl⟩

theorem getElem?_of_mem (hs : s ∈ m.body) : m.body[s.index]? = some s := by
  obtain ⟨i, hi⟩ := Array.mem_iff_getElem?.1 hs
  rwa [(h.index_of_getElem? hi).1]

theorem method_of_mem (hs : s ∈ m.body) : s.method = m.name :=
  (h.index_of_getElem? (h.getElem?_of_mem hs)).2

theorem getElem?_succs (i : Nat) :
    m.succs[i]? = m.body[i]?.map fun s => s.targets.filterMap fun t => m.body[t]? := by
  obtain ⟨name, receiver, params, actions, rfl⟩ := h
  exact Array.getElem?_map

theorem getElem?_preds (i : Nat) : m.preds[i]? = if i < m.body.size then
    some (m.body.toList.filter fun s => s.targets.contains i) else none := by
  obtain ⟨name, receiver, params, actions, rfl⟩ := h
  have hsize : (ofActions name receiver params actions).body.size = actions.length := by
    simp [ofActions]
  refine Array.getElem?_map.trans ?_
  rw [hsize, List.getElem?_toArray, List.size_toArray, List.length_map, List.length_zipIdx]
  split
  · next hi => rw [List.getElem?_range hi]; rfl
  · next hi => rw [List.getElem?_eq_none (by simpa using hi)]; rfl

/-- What may run after a statement is where its action leads to. -/
theorem mem_successors_iff (hs : s ∈ m.body) (t : Statement) :
    t ∈ m.successors s ↔ t ∈ m.body ∧ t.index ∈ s.targets := by
  rw [successors, Array.getD_eq_getD_getElem?, h.getElem?_succs, h.getElem?_of_mem hs]
  simp only [map_some, getD_some, mem_filterMap]
  constructor
  · rintro ⟨i, hi, ht⟩
    exact ⟨Array.mem_of_getElem? ht, (h.index_of_getElem? ht).1.symm ▸ hi⟩
  · rintro ⟨ht, hi⟩
    exact ⟨t.index, hi, h.getElem?_of_mem ht⟩

/-- What may run before a statement is what leads to it. -/
theorem mem_predecessors_iff (ht : t ∈ m.body) (s : Statement) :
    s ∈ m.predecessors t ↔ s ∈ m.body ∧ t.index ∈ s.targets := by
  have hi : t.index < m.body.size := (Array.getElem?_eq_some_iff.1 (h.getElem?_of_mem ht)).1
  rw [predecessors, Array.getD_eq_getD_getElem?, h.getElem?_preds, if_pos hi]
  simp

/-- Only statements of the body follow, whatever they follow. -/
theorem mem_body_of_mem_successors (ht : t ∈ m.successors s) : t ∈ m.body := by
  rw [successors, Array.getD_eq_getD_getElem?, h.getElem?_succs] at ht
  cases hs : m.body[s.index]? with
  | none =>
    rw [hs] at ht
    cases ht
  | some =>
    rw [hs] at ht
    obtain ⟨i, -, hi⟩ := mem_filterMap.1 ht
    exact Array.mem_of_getElem? hi

/-- Only statements of the body precede, whatever they precede. -/
theorem mem_body_of_mem_predecessors (hs : s ∈ m.predecessors t) : s ∈ m.body := by
  rw [predecessors, Array.getD_eq_getD_getElem?, h.getElem?_preds] at hs
  split at hs
  · exact Array.mem_toList_iff.1 (mem_filter.1 hs).1
  · cases hs

end IsLaidOut

end Method

/-! ### Programs -/

/-- All methods of the program are laid out from lists of actions. -/
def Program.IsLaidOut (p : Program) : Prop := ∀ m ∈ p.methods, m.IsLaidOut

namespace Program

variable {s t : Statement} {m : Method} {name : MethodName}

theorem mem_methods_of_method? (h : p.method? name = some m) :
    m ∈ p.methods := List.mem_of_find?_eq_some h

theorem name_of_method? (h : p.method? name = some m) : m.name = name := by
  simpa using List.find?_some h

theorem mem_statements_iff (p : Program) (s : Statement) :
    s ∈ p.statements ↔ ∃ m ∈ p.methods, s ∈ m.body := by
  simp [statements]

section

variable (h : p.IsLaidOut)
include h

/-- What follows a statement is in the body of its method. -/
theorem IsLaidOut.exists_of_mem_successors (ht : t ∈ p.successors s) :
    ∃ m, p.method? s.method = some m ∧ t ∈ m.body := by
  unfold successors at ht
  split at ht
  · next m hm => exact ⟨m, hm, (h m (mem_methods_of_method? hm)).mem_body_of_mem_successors ht⟩
  · cases ht

/-- What precedes a statement is in the body of its method. -/
theorem IsLaidOut.exists_of_mem_predecessors (hs : s ∈ p.predecessors t) :
    ∃ m, p.method? t.method = some m ∧ s ∈ m.body := by
  unfold predecessors at hs
  split at hs
  · next m hm => exact ⟨m, hm, (h m (mem_methods_of_method? hm)).mem_body_of_mem_predecessors hs⟩
  · cases hs

/-- What follows a statement is a statement of the program. -/
theorem IsLaidOut.mem_statements_of_mem_successors (ht : t ∈ p.successors s) :
    t ∈ p.statements := by
  obtain ⟨m, hm, hmem⟩ := h.exists_of_mem_successors ht
  exact (p.mem_statements_iff t).2 ⟨m, mem_methods_of_method? hm, hmem⟩

/-- What precedes a statement is a statement of the program. -/
theorem IsLaidOut.mem_statements_of_mem_predecessors (hs : s ∈ p.predecessors t) :
    s ∈ p.statements := by
  obtain ⟨m, hm, hmem⟩ := h.exists_of_mem_predecessors hs
  exact (p.mem_statements_iff s).2 ⟨m, mem_methods_of_method? hm, hmem⟩

theorem IsLaidOut.method_of_mem_body (hm : p.method? name = some m) (hs : s ∈ m.body) :
    s.method = name := by
  rw [(h m (mem_methods_of_method? hm)).method_of_mem hs, name_of_method? hm]

theorem IsLaidOut.method_of_mem_successors (ht : t ∈ p.successors s) : t.method = s.method := by
  obtain ⟨m, hm, hmem⟩ := h.exists_of_mem_successors ht
  exact h.method_of_mem_body hm hmem

theorem IsLaidOut.method_of_mem_predecessors (hs : s ∈ p.predecessors t) : s.method = t.method := by
  obtain ⟨m, hm, hmem⟩ := h.exists_of_mem_predecessors hs
  exact h.method_of_mem_body hm hmem

end

theorem mem_statements_of_start? (hm : p.method? name = some m) (hs : m.start? = some s) :
    s ∈ p.statements :=
  (p.mem_statements_iff s).2 ⟨m, mem_methods_of_method? hm, Array.mem_of_getElem? hs⟩

/-- The statement is one of the method it says it is of. -/
def Places (p : Program) (s : Statement) : Prop := ∃ m, p.method? s.method = some m ∧ s ∈ m.body

theorem Places.mem_statements (h : p.Places s) : s ∈ p.statements := by
  obtain ⟨m, hm, hs⟩ := h
  exact (p.mem_statements_iff s).2 ⟨m, mem_methods_of_method? hm, hs⟩

theorem IsLaidOut.places_of_start? (h : p.IsLaidOut) (hm : p.method? name = some m)
    (hs : m.start? = some s) : p.Places s := by
  have hmem : s ∈ m.body := Array.mem_of_getElem? hs
  refine ⟨m, ?_, hmem⟩
  rw [(h m (mem_methods_of_method? hm)).method_of_mem hmem, name_of_method? hm, hm]

/-- What follows a statement of the program is such a statement and is preceded by it. -/
theorem IsLaidOut.places_of_mem_successors (h : p.IsLaidOut) (hs : p.Places s)
    (ht : t ∈ p.successors s) : p.Places t ∧ s ∈ p.predecessors t := by
  obtain ⟨m, hm, hs⟩ := hs
  have hlaid := h m (mem_methods_of_method? hm)
  rw [successors, hm] at ht
  obtain ⟨hmem, htarget⟩ := (hlaid.mem_successors_iff hs t).1 ht
  have hmethod : p.method? t.method = some m := by
    rw [hlaid.method_of_mem hmem, name_of_method? hm, hm]
  refine ⟨⟨m, hmethod, hmem⟩, ?_⟩
  rw [predecessors, hmethod]
  exact (hlaid.mem_predecessors_iff hmem s).2 ⟨hs, htarget⟩

/-- What precedes a statement of the program is such a statement and is followed by it. -/
theorem IsLaidOut.places_of_mem_predecessors (h : p.IsLaidOut) (ht : p.Places t)
    (hs : s ∈ p.predecessors t) : p.Places s ∧ t ∈ p.successors s ∧ s.isReturn = false := by
  obtain ⟨m, hm, ht⟩ := ht
  have hlaid := h m (mem_methods_of_method? hm)
  rw [predecessors, hm] at hs
  obtain ⟨hmem, htarget⟩ := (hlaid.mem_predecessors_iff ht s).1 hs
  have hmethod : p.method? s.method = some m := by
    rw [hlaid.method_of_mem hmem, name_of_method? hm, hm]
  refine ⟨⟨m, hmethod, hmem⟩, ?_, ?_⟩
  · rw [successors, hmethod]
    exact (hlaid.mem_successors_iff hmem t).2 ⟨ht, htarget⟩
  · cases haction : s.action with
    | ret => simp [Statement.targets, haction] at htarget
    | _ => simp [Statement.isReturn, haction]

theorem IsLaidOut.places_of_mem_exits (h : p.IsLaidOut) (hm : p.method? name = some m)
    (hs : s ∈ m.exits) : p.Places s ∧ s.method = name := by
  have hmem : s ∈ m.body := Array.mem_toList_iff.1 (mem_filter.1 hs).1
  have hname : s.method = name := by
    rw [(h m (mem_methods_of_method? hm)).method_of_mem hmem, name_of_method? hm]
  exact ⟨⟨m, hname ▸ hm, hmem⟩, hname⟩

/-- No two methods have the same name. -/
def NamesDistinct (p : Program) : Prop := (p.methods.map Method.name).Nodup

theorem NamesDistinct.method?_eq (h : p.NamesDistinct) (hm : m ∈ p.methods) :
    p.method? m.name = some m := by
  unfold NamesDistinct at h
  unfold method?
  generalize p.methods = ms at h hm
  induction ms with
  | nil => cases hm
  | cons m' _ ih =>
    rw [map_cons, nodup_cons] at h
    rcases mem_cons.1 hm with rfl | hm
    · exact List.find?_cons_of_pos (beq_self_eq_true _)
    · have hne : m'.name ≠ m.name := fun heq => h.1 (heq ▸ List.mem_map_of_mem hm)
      rw [List.find?_cons_of_neg (by simpa using hne)]
      exact ih h.2 hm

theorem IsLaidOut.places_of_mem_statements (h : p.IsLaidOut) (hp : p.NamesDistinct)
    (hs : s ∈ p.statements) : p.Places s := by
  obtain ⟨m, hm, hs⟩ := (p.mem_statements_iff s).1 hs
  exact ⟨m, (h m hm).method_of_mem hs ▸ hp.method?_eq hm, hs⟩

end Program

/-! ### Descriptions -/

/-- The members of a list have results if each of them has. -/
theorem mapM_eq_ok_iff {α β ε : Type} {f : α → Except ε β} {xs : List α} {ys : List β} :
    xs.mapM f = .ok ys ↔ List.Forall₂ (fun x y => f x = .ok y) xs ys := by
  induction xs generalizing ys with
  | nil => simp [pure, Except.pure, eq_comm]
  | cons x xs ih =>
    rw [List.mapM_cons, List.forall₂_cons_left_iff]
    cases hx : f x with
    | error => simp [bind, Except.bind]
    | ok =>
      cases hxs : xs.mapM f with
      | error => simp [← ih, hxs, bind, Except.bind]
      | ok => simp [← ih, hxs, bind, Except.bind, pure, Except.pure, eq_comm]

/-- The instructions, followed by a return if control may fall off their end. -/
def MethodDecl.instructions (m : MethodDecl) : List Instruction :=
  if m.endsInExit then m.body else m.body ++ [.ret none]

namespace MethodContext

variable {ctx : MethodContext} {m : Method}

section

variable (h : ctx.method = .ok m)
include h

/-- A method is laid out from what its instructions do. -/
theorem exists_of_method :
    ∃ actions, m = .ofActions ctx.name (ctx.decl.receiver.map ctx.localNamed)
        (ctx.decl.params.map ctx.localNamed) actions ∧
      List.Forall₂ (fun i a => ctx.action i = .ok a) ctx.decl.instructions actions := by
  cases hactions : ctx.decl.body.mapM ctx.action with
  | error =>
    rw [method, hactions] at h
    cases h
  | ok =>
    rw [method, hactions] at h
    cases h
    refine ⟨_, rfl, ?_⟩
    have hall := mapM_eq_ok_iff.1 hactions
    unfold MethodDecl.instructions
    split
    · exact hall
    · exact List.rel_append hall (.cons rfl .nil)

/-- Each statement does what the instruction at its place says. -/
theorem exists_instruction_of_method {place : Nat} {s : Statement} (hs : m.body[place]? = some s) :
    ∃ i, ctx.decl.instructions[place]? = some i ∧ ctx.action i = .ok s.action := by
  obtain ⟨actions, rfl, hall⟩ := exists_of_method h
  rw [Method.getElem?_body_ofActions] at hs
  obtain ⟨a, ha, rfl⟩ := map_eq_some_iff.1 hs
  obtain ⟨hplace, rfl⟩ := List.getElem?_eq_some_iff.1 ha
  have hplace' : place < ctx.decl.instructions.length := hall.length_eq ▸ hplace
  exact ⟨_, List.getElem?_eq_getElem hplace', hall.get hplace' hplace⟩

theorem isLaidOut_of_method : m.IsLaidOut := by
  obtain ⟨actions, rfl, -⟩ := exists_of_method h
  exact ⟨_, _, _, _, rfl⟩

theorem name_of_method : m.name = ctx.name := by
  obtain ⟨actions, rfl, -⟩ := exists_of_method h
  rfl

end

/-- What holds of what instructions do holds of all statements. -/
theorem action_of_method {P : Action → Prop} (hP : ∀ {i a}, ctx.action i = .ok a → P a)
    (h : ctx.method = .ok m) : ∀ s ∈ m.body, P s.action := by
  intro s hs
  obtain ⟨place, hplace⟩ := Array.mem_iff_getElem?.1 hs
  obtain ⟨i, -, hi⟩ := exists_instruction_of_method h hplace
  exact hP hi

end MethodContext

theorem Description.exists_of_resolveMethods {decl : MethodDecl}
    (h : resolveMethods context seen (decl :: decls) = .ok ms) :
    ∃ m ms', ms = m :: ms' ∧ (context decl).method = .ok m ∧ decl.name ∉ seen ∧
      resolveMethods context (decl.name :: seen) decls = .ok ms' := by
  simp only [resolveMethods] at h
  split at h
  · cases h
  · cases hm : (context decl).method with
    | error =>
      rw [hm] at h
      cases h
    | ok m =>
      rw [hm] at h
      simp only [bind, Except.bind] at h
      split at h
      · cases h
      · next hnew =>
        cases hms : resolveMethods context (decl.name :: seen) decls with
        | error =>
          rw [hms] at h
          cases h
        | ok ms' =>
          rw [hms] at h
          cases h
          exact ⟨m, ms', rfl, rfl, fun hmem => hnew (List.contains_iff_mem.2 hmem), rfl⟩

/-- What holds of every method that is resolved holds of all methods of a description. -/
theorem Description.forall_of_resolveMethods {P : Method → Prop}
    (hP : ∀ {ctx : MethodContext} {m}, ctx.method = .ok m → P m)
    (h : resolveMethods context seen decls = .ok ms) : ∀ m ∈ ms, P m := by
  induction decls generalizing seen ms with
  | nil =>
    cases h
    exact fun m hm => nomatch hm
  | cons _ _ ih =>
    obtain ⟨m, ms', rfl, hm, -, hms⟩ := exists_of_resolveMethods h
    intro m' hm'
    rcases mem_cons.1 hm' with rfl | hm'
    · exact hP hm
    · exact ih hms m' hm'

/-- No two methods that are resolved have the same name, and none has one seen before. -/
theorem Description.nodup_of_resolveMethods (hcontext : ∀ decl, (context decl).name = ⟨decl.name⟩)
    (h : resolveMethods context seen decls = .ok ms) :
    (ms.map Method.name).Nodup ∧ ∀ m ∈ ms, ∀ name ∈ seen, m.name ≠ ⟨name⟩ := by
  induction decls generalizing seen ms with
  | nil =>
    cases h
    exact ⟨nodup_nil, fun m hm => nomatch hm⟩
  | cons decl _ ih =>
    obtain ⟨m, ms', rfl, hm, hnew, hms⟩ := exists_of_resolveMethods h
    obtain ⟨hnodup, hseen⟩ := ih hms
    have hname : m.name = ⟨decl.name⟩ := (MethodContext.name_of_method hm).trans (hcontext decl)
    refine ⟨?_, ?_⟩
    · rw [map_cons, nodup_cons]
      refine ⟨fun hmem => ?_, hnodup⟩
      obtain ⟨m', hm', heq⟩ := mem_map.1 hmem
      exact hseen m' hm' decl.name mem_cons_self (heq.trans hname)
    · intro m' hm' name hmem heq
      rcases mem_cons.1 hm' with rfl | hm'
      · cases hname.symm.trans heq
        exact hnew hmem
      · exact hseen m' hm' name (mem_cons_of_mem _ hmem) heq

/-- A description is resolved if its classes and its methods are, and these are put in order. -/
theorem Description.resolve_eq_ok_iff :
    d.resolve = .ok p ↔ ∃ classes methods, resolveClasses d.classes = .ok classes ∧
      resolveMethods (d.context (.ofMethods d.methods)) [] d.methods = .ok methods ∧
      p = ⟨sortedBy Class.name classes, sortedBy Method.name methods,
        sortedUnique (d.unreachable.map MethodName.mk)⟩ := by
  rw [resolve]
  cases resolveClasses d.classes with
  | error => simp [bind, Except.bind]
  | ok =>
    cases resolveMethods (d.context (.ofMethods d.methods)) [] d.methods with
    | error => simp [bind, Except.bind]
    | ok => simp [bind, Except.bind, eq_comm]

theorem Description.forall_of_resolve {P : Method → Prop}
    (hP : ∀ {ctx : MethodContext} {m}, ctx.method = .ok m → P m) (h : d.resolve = .ok p) :
    ∀ m ∈ p.methods, P m := by
  obtain ⟨classes, methods, -, hm, rfl⟩ := resolve_eq_ok_iff.1 h
  exact fun m hmem => forall_of_resolveMethods hP hm m (mem_mergeSort.1 hmem)

/-- In a program that a description describes, no two methods have the same name. -/
theorem Description.namesDistinct_of_resolve (h : d.resolve = .ok p) : p.NamesDistinct := by
  obtain ⟨classes, methods, -, hm, rfl⟩ := resolve_eq_ok_iff.1 h
  have hnodup := (nodup_of_resolveMethods (fun decl => rfl) hm).1
  exact ((List.mergeSort_perm methods _).map Method.name).nodup_iff.2 hnodup

/-- A program that a description describes is laid out. -/
theorem isLaidOut_of_resolve (h : d.resolve = .ok p) : p.IsLaidOut :=
  Description.forall_of_resolve MethodContext.isLaidOut_of_method h

end DemandAlias
