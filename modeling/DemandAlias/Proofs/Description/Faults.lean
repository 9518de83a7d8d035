import DemandAlias.Error
import DemandAlias.Proofs.Description.Order
import Mathlib.Data.List.Duplicate

/-!
# Faults of descriptions

A description is looked through from its classes to the instructions of its methods, and refused
for the first fault that is met. What is accepted is all that has no fault, wherever it might be:
names are different from each other and of the right form, superclasses are declared, and jumps
stay in their methods (`Description.WellFormed`).

* `Description.wellFormed_of_resolve`: what is resolved is well formed;
* `Description.hasFault_of_resolve`: what a description is refused for is wrong with it
  (`Description.HasFault`), so that it is not well formed;
* `Description.accepts_iff_wellFormed`: hence exactly the well-formed descriptions are accepted.
-/

namespace DemandAlias

variable {fault : ProgramFault}

/-! ### Lists of results -/

section Results

variable {α β ε : Type} {f : α → Except ε β}

/-- If the members of a list have no results, it is for one of them. -/
theorem exists_of_mapM_eq_error {xs : List α} {e : ε} (h : xs.mapM f = .error e) :
    ∃ x ∈ xs, f x = .error e := by
  induction xs with
  | nil => cases h
  | cons x xs ih =>
    rw [List.mapM_cons] at h
    cases hx : f x with
    | error =>
      rw [hx] at h
      cases h
      exact ⟨x, mem_cons_self, hx⟩
    | ok =>
      cases hxs : xs.mapM f with
      | error =>
        rw [hx, hxs] at h
        cases h
        obtain ⟨x', hx', herror⟩ := ih hxs
        exact ⟨x', mem_cons_of_mem _ hx', herror⟩
      | ok =>
        rw [hx, hxs] at h
        cases h

theorem exists_of_forall₂ {R : α → β → Prop} {xs : List α} {ys : List β}
    (h : List.Forall₂ R xs ys) {x : α} (hx : x ∈ xs) : ∃ y, R x y := by
  obtain ⟨n, rfl⟩ := List.mem_iff_get.1 hx
  exact ⟨_, h.get n.2 (h.length_eq ▸ n.2)⟩

end Results

/-! ### Methods -/

theorem isQualified_iff {name : String} : isQualified name = true ↔ '.' ∈ name.toList :=
  List.contains_iff_mem

namespace Instruction

/-- The method that a static call names. -/
def staticCallee? : Instruction → Option String
  | .call _ method _ => some method
  | _ => none

/-- The place that a branch or a jump names. -/
def jumpTarget? : Instruction → Option Nat
  | .branch _ _ _ target | .jump target => some target
  | _ => none

end Instruction

namespace MethodDecl

/-- A method with nothing wrong in it: its name and those of the methods it calls have a class, and
    it jumps only to places of its own. -/
structure WellFormed (m : MethodDecl) : Prop where
  qualified : '.' ∈ m.name.toList
  callees : ∀ i ∈ m.body, ∀ callee, i.staticCallee? = some callee → '.' ∈ callee.toList
  targets : ∀ i ∈ m.body, ∀ target, i.jumpTarget? = some target → target < m.length

instance (m : MethodDecl) : Decidable m.WellFormed :=
  decidable_of_iff ('.' ∈ m.name.toList ∧
      (∀ i ∈ m.body, ∀ callee ∈ i.staticCallee?, '.' ∈ callee.toList) ∧
      ∀ i ∈ m.body, ∀ target ∈ i.jumpTarget?, target < m.length)
    ⟨fun h => ⟨h.1, h.2.1, h.2.2⟩, fun h => ⟨h.qualified, h.callees, h.targets⟩⟩

/-- What is wrong in a method. -/
inductive HasFault (m : MethodDecl) : ProgramFault → Prop
  | unqualifiedMethod (hname : '.' ∉ m.name.toList) : HasFault m (.unqualifiedMethod m.name)
  | unqualifiedCallee {i : Instruction} {callee : String} (hi : i ∈ m.body)
      (hcallee : i.staticCallee? = some callee) (hname : '.' ∉ callee.toList) :
    HasFault m (.unqualifiedCallee m.name callee)
  | targetOutOfBounds {i : Instruction} {target : Nat} (hi : i ∈ m.body)
      (htarget : i.jumpTarget? = some target) (hbound : m.length ≤ target) :
    HasFault m (.targetOutOfBounds m.name target)

theorem WellFormed.not_hasFault {m : MethodDecl} (h : m.WellFormed) :
    ¬m.HasFault fault
  | .unqualifiedMethod hname => hname h.qualified
  | .unqualifiedCallee hi hcallee hname => hname (h.callees _ hi _ hcallee)
  | .targetOutOfBounds hi htarget hbound => Nat.not_lt.2 hbound (h.targets _ hi _ htarget)

end MethodDecl

namespace MethodContext

variable {ctx : MethodContext} {i : Instruction}

/-- An instruction that can be resolved calls methods of classes, and jumps to places of the
    method. -/
theorem wellFormed_of_action {a : Action} (h : ctx.action i = .ok a) :
    (∀ callee, i.staticCallee? = some callee → '.' ∈ callee.toList) ∧
      ∀ target, i.jumpTarget? = some target → target < ctx.decl.length := by
  cases i with
  | call =>
    simp only [action] at h
    split at h
    · next hname =>
      refine ⟨fun callee heq => ?_, fun target heq => (by cases heq)⟩
      cases heq
      exact isQualified_iff.1 hname
    · cases h
  | branch lhs comparison rhs target | jump target =>
    simp only [action, checkTarget] at h
    split at h
    · next hbound =>
      refine ⟨fun callee heq => (by cases heq), fun target' heq => ?_⟩
      cases heq
      exact hbound
    · cases h
  | _ => exact ⟨fun callee heq => (by cases heq), fun target heq => (by cases heq)⟩

/-- An instruction that cannot be resolved has the fault that is found. -/
theorem hasFault_of_action (hi : i ∈ ctx.decl.body) (h : ctx.action i = .error fault) :
    ctx.decl.HasFault fault := by
  cases i with
  | call =>
    simp only [action] at h
    split at h
    · cases h
    · next hname =>
      cases h
      exact .unqualifiedCallee hi rfl fun hmem => hname (isQualified_iff.2 hmem)
  | branch lhs comparison rhs target | jump target =>
    simp only [action, checkTarget] at h
    split at h
    · cases h
    · next hbound =>
      cases h
      exact .targetOutOfBounds hi rfl (Nat.not_lt.1 hbound)
  | _ => cases h

theorem wellFormed_of_method {m : Method} (h : ctx.method = .ok m)
    (hname : isQualified ctx.decl.name = true) : ctx.decl.WellFormed := by
  cases hactions : ctx.decl.body.mapM ctx.action with
  | error =>
    rw [method, hactions] at h
    cases h
  | ok =>
    have hall := mapM_eq_ok_iff.1 hactions
    refine ⟨isQualified_iff.1 hname, fun i hi => ?_, fun i hi => ?_⟩
    · obtain ⟨a, ha⟩ := exists_of_forall₂ hall hi
      exact (wellFormed_of_action ha).1
    · obtain ⟨a, ha⟩ := exists_of_forall₂ hall hi
      exact (wellFormed_of_action ha).2

theorem hasFault_of_method (h : ctx.method = .error fault) :
    ctx.decl.HasFault fault := by
  cases hactions : ctx.decl.body.mapM ctx.action with
  | error =>
    rw [method, hactions] at h
    cases h
    obtain ⟨i, hi, herror⟩ := exists_of_mapM_eq_error hactions
    exact hasFault_of_action hi herror
  | ok =>
    rw [method, hactions] at h
    cases h

end MethodContext

/-! ### Descriptions -/

namespace Description

variable {d : Description}

/-- A description with nothing wrong in it. -/
structure WellFormed (d : Description) : Prop where
  classesDistinct : (d.classes.map ClassDecl.name).Nodup
  superclassesDeclared : ∀ c ∈ d.classes, ∀ superclass, c.superclass = some superclass →
    superclass ∈ d.classes.map ClassDecl.name
  methodsDistinct : (d.methods.map MethodDecl.name).Nodup
  methods : ∀ m ∈ d.methods, m.WellFormed

instance (d : Description) : Decidable d.WellFormed :=
  decidable_of_iff ((d.classes.map ClassDecl.name).Nodup ∧
      (∀ c ∈ d.classes, ∀ superclass ∈ c.superclass, superclass ∈ d.classes.map ClassDecl.name) ∧
      (d.methods.map MethodDecl.name).Nodup ∧ ∀ m ∈ d.methods, m.WellFormed)
    ⟨fun h => ⟨h.1, h.2.1, h.2.2.1, h.2.2.2⟩,
      fun h => ⟨h.classesDistinct, h.superclassesDeclared, h.methodsDistinct, h.methods⟩⟩

/-- What is wrong in a description. -/
inductive HasFault (d : Description) : ProgramFault → Prop
  | duplicateClass {name : String}
      (hname : List.Duplicate name (d.classes.map ClassDecl.name)) :
    HasFault d (.duplicateClass name)
  | unknownSuperclass {c : ClassDecl} {superclass : String} (hc : c ∈ d.classes)
      (hsuper : c.superclass = some superclass)
      (hunknown : superclass ∉ d.classes.map ClassDecl.name) :
    HasFault d (.unknownSuperclass c.name superclass)
  | duplicateMethod {name : String}
      (hname : List.Duplicate name (d.methods.map MethodDecl.name)) :
    HasFault d (.duplicateMethod name)
  | method {m : MethodDecl} {fault : ProgramFault} (hm : m ∈ d.methods)
      (hfault : m.HasFault fault) :
    HasFault d fault

theorem WellFormed.not_hasFault (h : d.WellFormed) :
    ¬d.HasFault fault
  | .duplicateClass hname => hname.not_nodup h.classesDistinct
  | .unknownSuperclass hc hsuper hunknown => hunknown (h.superclassesDeclared _ hc _ hsuper)
  | .duplicateMethod hname => hname.not_nodup h.methodsDistinct
  | .method hm hfault => (h.methods _ hm).not_hasFault hfault

/-- What is resolved is well formed. -/
theorem wellFormed_of_resolve {p : Program} (h : d.resolve = .ok p) : d.WellFormed := by
  obtain ⟨classes, methods, hclasses, hmethods, -⟩ := resolve_eq_ok_iff.1 h
  obtain ⟨hdistinct, hdeclared, -⟩ := resolveClasses_eq_ok_iff.1 hclasses
  obtain ⟨hdistinct', -, hall⟩ := resolveMethods_eq_ok_iff.1 hmethods
  refine ⟨hdistinct, hdeclared, hdistinct', fun m hm => ?_⟩
  obtain ⟨_, hname, hresolved⟩ := exists_of_forall₂ hall hm
  exact MethodContext.wellFormed_of_method hresolved hname

theorem duplicate_of_firstRepeated? {seen names : List String} {name : String}
    (h : firstRepeated? seen names = some name) :
    List.Duplicate name names ∨ name ∈ names ∧ name ∈ seen := by
  fun_induction firstRepeated? seen names with
  | case1 => cases h
  | case2 _ _ _ hseen =>
    cases h
    exact .inr ⟨mem_cons_self, List.contains_iff_mem.1 hseen⟩
  | case3 _ _ _ _ ih =>
    rcases ih h with hduplicate | ⟨hmem, hmem'⟩
    · exact .inl (hduplicate.duplicate_cons _)
    · rcases mem_cons.1 hmem' with rfl | hmem'
      · exact .inl hmem.duplicate_cons_self
      · exact .inr ⟨mem_cons_of_mem _ hmem, hmem'⟩

theorem exists_of_firstUnknownSuperclass? {names : List String} {classes : List ClassDecl}
    {name superclass : String}
    (h : firstUnknownSuperclass? names classes = some (name, superclass)) :
    ∃ c ∈ classes, c.name = name ∧ c.superclass = some superclass ∧ superclass ∉ names := by
  fun_induction firstUnknownSuperclass? names classes with
  | case1 => cases h
  | case2 _ _ _ _ _ ih =>
    obtain ⟨c', hc', h⟩ := ih h
    exact ⟨c', mem_cons_of_mem _ hc', h⟩
  | case3 c _ _ hsuper hunknown =>
    cases h
    exact ⟨c, mem_cons_self, rfl, hsuper, fun hmem => hunknown (List.contains_iff_mem.2 hmem)⟩
  | case4 _ _ _ ih =>
    obtain ⟨c', hc', h⟩ := ih h
    exact ⟨c', mem_cons_of_mem _ hc', h⟩

theorem hasFault_of_resolveClasses (h : resolveClasses d.classes = .error fault) :
    d.HasFault fault := by
  simp only [resolveClasses] at h
  split at h
  · next name hrepeated =>
    cases h
    rcases duplicate_of_firstRepeated? hrepeated with hduplicate | ⟨-, hmem⟩
    · exact .duplicateClass hduplicate
    · cases hmem
  · next name superclass hunknown =>
    cases h
    obtain ⟨c, hc, rfl, hsuper, hmem⟩ := exists_of_firstUnknownSuperclass? hunknown
    exact .unknownSuperclass hc hsuper hmem
  · cases h

/-- Methods are refused for what is wrong in one of them, or for a name that was there before. -/
theorem hasFault_of_resolveMethods {context : MethodDecl → MethodContext}
    (hcontext : ∀ decl, (context decl).decl = decl) {seen : List String} {decls : List MethodDecl}
    (h : resolveMethods context seen decls = .error fault) :
    (∃ m ∈ decls, m.HasFault fault) ∨ ∃ name, fault = .duplicateMethod name ∧
      (List.Duplicate name (decls.map MethodDecl.name) ∨
        name ∈ decls.map MethodDecl.name ∧ name ∈ seen) := by
  induction decls generalizing seen with
  | nil => cases h
  | cons decl decls ih =>
    rw [resolveMethods] at h
    split at h
    · next hname =>
      cases h
      refine .inl ⟨decl, mem_cons_self, .unqualifiedMethod fun hmem => ?_⟩
      rw [isQualified_iff.2 hmem] at hname
      cases hname
    · cases hm : (context decl).method with
      | error =>
        rw [hm] at h
        cases h
        have hfault := MethodContext.hasFault_of_method hm
        rw [hcontext] at hfault
        exact .inl ⟨decl, mem_cons_self, hfault⟩
      | ok m =>
        rw [hm] at h
        simp only [bind, Except.bind] at h
        split at h
        · next hseen =>
          cases h
          exact .inr ⟨_, rfl, .inr ⟨mem_cons_self, List.contains_iff_mem.1 hseen⟩⟩
        · cases hms : resolveMethods context (decl.name :: seen) decls with
          | error =>
            rw [hms] at h
            cases h
            rcases ih hms with ⟨m, hm, hfault⟩ | ⟨name, rfl, hduplicate | ⟨hmem, hmem'⟩⟩
            · exact .inl ⟨m, mem_cons_of_mem _ hm, hfault⟩
            · exact .inr ⟨name, rfl, .inl (hduplicate.duplicate_cons _)⟩
            · -- Seen before can mean seen just now, which makes it a duplicate.
              rcases mem_cons.1 hmem' with rfl | hmem'
              · exact .inr ⟨_, rfl, .inl hmem.duplicate_cons_self⟩
              · exact .inr ⟨name, rfl, .inr ⟨mem_cons_of_mem _ hmem, hmem'⟩⟩
          | ok =>
            rw [hms] at h
            cases h

/-- What a description is refused for is wrong with it. -/
theorem hasFault_of_resolve (h : d.resolve = .error fault) : d.HasFault fault := by
  rw [resolve] at h
  cases hclasses : resolveClasses d.classes with
  | error =>
    rw [hclasses] at h
    cases h
    exact hasFault_of_resolveClasses hclasses
  | ok =>
    cases hmethods : resolveMethods (d.context (.ofMethods d.methods)) [] d.methods with
    | error =>
      rw [hclasses, hmethods] at h
      cases h
      rcases hasFault_of_resolveMethods (fun _ => rfl) hmethods with
        ⟨m, hm, hfault⟩ | ⟨name, rfl, hduplicate | ⟨-, hmem⟩⟩
      · exact .method hm hfault
      · exact .duplicateMethod hduplicate
      · cases hmem
    | ok =>
      rw [hclasses, hmethods] at h
      cases h

/-- A description is accepted exactly if it is well formed. Otherwise it is refused as malformed,
    and for something that is wrong with it. -/
theorem accepts_iff_wellFormed (d : Description) :
    ((∃ p, d.program = .ok p) ↔ d.WellFormed) ∧
      (¬d.WellFormed ↔
        ∃ fault, d.program = .error (.malformedProgram fault) ∧ d.HasFault fault) := by
  rw [program]
  cases h : d.resolve with
  | ok p =>
    have hformed := wellFormed_of_resolve h
    refine ⟨iff_of_true ⟨p, rfl⟩ hformed, iff_of_false (not_not_intro hformed) ?_⟩
    rintro ⟨fault, herror, -⟩
    cases herror
  | error fault =>
    have hfault := hasFault_of_resolve h
    have hmalformed : ¬d.WellFormed := fun hformed => hformed.not_hasFault hfault
    refine ⟨iff_of_false ?_ hmalformed, iff_of_true hmalformed ⟨fault, rfl, hfault⟩⟩
    rintro ⟨p, hok⟩
    cases hok

-- A jump may go to where control falls off the end, and no further.
example : WellFormed { methods := [{ name := "Main.main", body := [.jump 2, .nop] }] } ∧
    ¬WellFormed { methods := [{ name := "Main.main", body := [.nop, .jump 2] }] } := by
  decide

end Description

end DemandAlias
