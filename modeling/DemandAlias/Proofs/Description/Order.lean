import DemandAlias.Proofs.Description.Constants
import DemandAlias.Proofs.Program.Hierarchy
import Mathlib.Data.List.Perm.Basic

/-!
# The order of declaration

A description is resolved to the same program in whatever order its classes, its methods and
the methods no execution reaches are declared (`Description.resolve_perm`). Each fault is looked
for in the order of declaration, but that there is none says nothing about the order
(`Description.resolveClasses_eq_ok_iff`, `Description.resolveMethods_eq_ok_iff`); a method is
resolved with the other ones only by what they are called and by the constants they return.
The program itself has all in the order of names.
-/

namespace DemandAlias

open ConstantResults

/-! ### Methods -/

namespace MethodContext

variable {decl : MethodDecl} {results results' : ConstantResults} {put get : Bool}

theorem action_congr (h : results.Agree results') :
    action ⟨decl, results, put, get⟩ = action ⟨decl, results', put, get⟩ := by
  have hkey : keyField ⟨decl, results, put, get⟩ = keyField ⟨decl, results', put, get⟩ :=
    funext fun o => congrArg Field.ofKey (h.constantOperand? decl o)
  funext i
  cases i with
  | virtualCall =>
    unfold action virtualAction
    simp only [hkey]
    rfl
  | _ => rfl

/-- A method is resolved with the constants that are known, in whatever order they are listed. -/
theorem method_congr (h : results.Agree results') :
    method ⟨decl, results, put, get⟩ = method ⟨decl, results', put, get⟩ := by
  simp only [method, action_congr h]
  rfl

end MethodContext

namespace Description

variable {classes : List ClassDecl} {cs : List Class}

theorem context_method_perm {d d' : Description} (hperm : d.methods.Perm d'.methods)
    (hnodup : (d.methods.map MethodDecl.name).Nodup) (decl : MethodDecl) :
    (d.context (.ofMethods d.methods) decl).method =
      (d'.context (.ofMethods d'.methods) decl).method := by
  have hshort : ∀ name, d.declaresShort name = d'.declaresShort name := fun name => hperm.any_eq
  rw [context, context, hshort, hshort]
  exact MethodContext.method_congr (agree_ofMethods hperm hnodup)

/-- Methods are resolved if their names are qualified and different from each other and from
    those seen before, and each can be resolved. -/
theorem resolveMethods_eq_ok_iff {context : MethodDecl → MethodContext} {seen : List String}
    {decls : List MethodDecl} {ms : List Method} :
    resolveMethods context seen decls = .ok ms ↔
      (decls.map MethodDecl.name).Nodup ∧ (∀ decl ∈ decls, decl.name ∉ seen) ∧
      List.Forall₂ (fun decl m => isQualified decl.name = true ∧ (context decl).method = .ok m)
        decls ms := by
  induction decls generalizing seen ms with
  | nil => simp [resolveMethods, Except.ok.injEq, eq_comm (a := ([] : List Method))]
  | cons decl decls ih =>
    constructor
    · intro h
      obtain ⟨m, ms', rfl, hm, hnew, hms⟩ := exists_of_resolveMethods h
      obtain ⟨hnodup, hseen, hall⟩ := ih.1 hms
      have hqualified : isQualified decl.name = true := by
        by_contra hq
        rw [resolveMethods, if_pos (by simpa using hq)] at h
        cases h
      refine ⟨nodup_cons.2 ⟨fun hmem => ?_, hnodup⟩, ?_, .cons ⟨hqualified, hm⟩ hall⟩
      · obtain ⟨decl', hdecl', heq⟩ := mem_map.1 hmem
        exact hseen decl' hdecl' (heq ▸ mem_cons_self)
      · intro decl' hdecl'
        rcases mem_cons.1 hdecl' with rfl | hdecl'
        · exact hnew
        · exact fun hmem => hseen decl' hdecl' (mem_cons_of_mem _ hmem)
    · rintro ⟨hnodup, hseen, hall⟩
      obtain ⟨m, ms', ⟨hqualified, hm⟩, hrest, rfl⟩ := List.forall₂_cons_left_iff.1 hall
      obtain ⟨hfirst, hnodup⟩ := nodup_cons.1 hnodup
      -- The first name is seen by all that come later, none of which has it.
      have hrest' : resolveMethods context (decl.name :: seen) decls = .ok ms' := by
        refine ih.2 ⟨hnodup, fun decl' hdecl' hmem => ?_, hrest⟩
        rcases mem_cons.1 hmem with heq | hmem
        · exact hfirst (heq ▸ List.mem_map_of_mem hdecl')
        · exact hseen decl' (mem_cons_of_mem _ hdecl') hmem
      have hnew : decl.name ∉ seen := hseen decl mem_cons_self
      simp [resolveMethods, hqualified, hm, hnew, hrest', bind, Except.bind]

theorem resolveMethods_perm {context context' : MethodDecl → MethodContext}
    {decls decls' : List MethodDecl} {ms : List Method} (hperm : decls.Perm decls')
    (hcontext : ∀ decl, (context decl).method = (context' decl).method)
    (h : resolveMethods context [] decls = .ok ms) :
    ∃ ms', resolveMethods context' [] decls' = .ok ms' ∧ ms.Perm ms' := by
  obtain ⟨hnodup, -, hall⟩ := resolveMethods_eq_ok_iff.1 h
  simp only [hcontext] at hall
  -- The methods are permuted as their declarations are.
  obtain ⟨ms', hall', hms⟩ := List.perm_comp_forall₂ hperm.symm hall
  refine ⟨ms', resolveMethods_eq_ok_iff.2 ⟨?_, ?_, hall'⟩, hms.symm⟩
  · exact (hperm.map MethodDecl.name).nodup_iff.1 hnodup
  · exact fun _ _ => not_mem_nil

/-! ### Classes -/

theorem firstRepeated?_eq_none_iff {seen names : List String} :
    firstRepeated? seen names = none ↔ names.Nodup ∧ ∀ name ∈ names, name ∉ seen := by
  induction names generalizing seen with
  | nil => simp [firstRepeated?]
  | cons name _ ih =>
    rw [firstRepeated?]
    by_cases h : name ∈ seen
    · simp [h]
    · rw [if_neg (by simpa using h), ih]
      grind

theorem firstUnknownSuperclass?_eq_none_iff {names : List String} :
    firstUnknownSuperclass? names classes = none ↔
      ∀ c ∈ classes, ∀ superclass, c.superclass = some superclass → superclass ∈ names := by
  induction classes with
  | nil => simp [firstUnknownSuperclass?]
  | cons c _ ih =>
    rw [firstUnknownSuperclass?]
    cases hsuper : c.superclass with
    | none => simp [ih, hsuper]
    | some superclass =>
      by_cases hknown : superclass ∈ names <;> simp [ih, hsuper, hknown]

/-- Classes are resolved if their names are different and they extend each other only. -/
theorem resolveClasses_eq_ok_iff :
    resolveClasses classes = .ok cs ↔ (classes.map ClassDecl.name).Nodup ∧
      (∀ c ∈ classes, ∀ superclass, c.superclass = some superclass →
        superclass ∈ classes.map ClassDecl.name) ∧
      classes.map (fun c => ⟨⟨c.name⟩, c.superclass.map ClassName.mk⟩) = cs := by
  rw [← firstUnknownSuperclass?_eq_none_iff]
  have hnodup : (classes.map ClassDecl.name).Nodup ↔
      firstRepeated? [] (classes.map ClassDecl.name) = none := by
    simp [firstRepeated?_eq_none_iff]
  rw [hnodup, resolveClasses]
  cases firstRepeated? [] (classes.map ClassDecl.name) with
  | some => simp
  | none =>
    cases firstUnknownSuperclass? (classes.map ClassDecl.name) classes with
    | some | none => simp

theorem nodup_of_resolveClasses (h : resolveClasses classes = .ok cs) :
    (cs.map Class.name).Nodup := by
  obtain ⟨hnodup, -, rfl⟩ := resolveClasses_eq_ok_iff.1 h
  have hnames : (classes.map fun c => (⟨⟨c.name⟩, c.superclass.map ClassName.mk⟩ : Class)).map
      Class.name = (classes.map ClassDecl.name).map ClassName.mk := by
    rw [List.map_map, List.map_map]
    rfl
  rw [hnames]
  exact hnodup.map fun a b heq => ClassName.mk.inj heq

theorem resolveClasses_perm {classes' : List ClassDecl} (hperm : classes.Perm classes')
    (h : resolveClasses classes = .ok cs) :
    ∃ cs', resolveClasses classes' = .ok cs' ∧ cs.Perm cs' := by
  obtain ⟨hnodup, hsuper, rfl⟩ := resolveClasses_eq_ok_iff.1 h
  have hnames := hperm.map ClassDecl.name
  refine ⟨_, resolveClasses_eq_ok_iff.2 ⟨hnames.nodup_iff.1 hnodup, ?_, rfl⟩, hperm.map _⟩
  exact fun c hc superclass heq =>
    hnames.mem_iff.1 (hsuper c (hperm.mem_iff.2 hc) superclass heq)

/-! ### Programs -/

/-- The classes, the methods and what no execution reaches are in the order of names. -/
theorem ascending_of_resolve {d : Description} {p : Program} (h : d.resolve = .ok p) :
    Ascending (p.classes.map Class.name) ∧ Ascending (p.methods.map Method.name) ∧
      Ascending p.unreachable := by
  have hmethods := Program.ascending_methods h
  obtain ⟨classes, methods, hc, -, rfl⟩ := resolve_eq_ok_iff.1 h
  have hclasses : ((sortedBy Class.name classes).map Class.name).Nodup :=
    ((List.mergeSort_perm classes _).map Class.name).nodup_iff.2 (nodup_of_resolveClasses hc)
  obtain ⟨hunreachable, hunreachable'⟩ := inOrder_sortedUnique (d.unreachable.map MethodName.mk)
  exact ⟨(inOrder_map_sortedBy Class.name classes).ascending hclasses, hmethods,
    hunreachable.ascending hunreachable'⟩

/-- Declarations in another order describe the same program. It has its classes, its methods,
    its calls and its allocation sites in increasing order, and the call graph of the class
    hierarchy has the edges of a call in the order of the classes and those of a method in the
    order of the calls. -/
theorem resolve_perm {d d' : Description} {p : Program} (hclasses : d.classes.Perm d'.classes)
    (hmethods : d.methods.Perm d'.methods) (hunreachable : d.unreachable.Perm d'.unreachable)
    (h : d.resolve = .ok p) :
    d'.resolve = .ok p ∧
    (Ascending (p.classes.map Class.name) ∧ Ascending (p.methods.map Method.name) ∧
      Ascending p.unreachable) ∧
    Ascending p.invocations ∧ Ascending (p.allocationSites.map (·.1)) ∧
    (∀ site, (classHierarchy p).callees site =
      if site ∈ p.invocations then (CallGraph.calleesIn p site).eraseDups else []) ∧
    ∀ m, (classHierarchy p).callers m =
      p.invocations.filter fun site => m ∈ CallGraph.calleesIn p site := by
  refine ⟨?_, ascending_of_resolve h, Program.ascending_invocations h,
    Program.ascending_allocationSites h, CallGraph.callees_classHierarchy h,
    CallGraph.callers_classHierarchy h⟩
  obtain ⟨classes, methods, hc, hm, rfl⟩ := resolve_eq_ok_iff.1 h
  have hnodup := (resolveMethods_eq_ok_iff.1 hm).1
  obtain ⟨classes', hc', hcperm⟩ := resolveClasses_perm hclasses hc
  obtain ⟨methods', hm', hmperm⟩ :=
    resolveMethods_perm hmethods (context_method_perm hmethods hnodup) hm
  refine resolve_eq_ok_iff.2 ⟨classes', methods', hc', hm', ?_⟩
  have hsame : sortedUnique (d.unreachable.map MethodName.mk) =
      sortedUnique (d'.unreachable.map MethodName.mk) :=
    sortedUnique_eq_of_mem_iff fun name => (hunreachable.map MethodName.mk).mem_iff
  rw [sortedBy_eq_of_perm hcperm (nodup_of_resolveClasses hc),
    sortedBy_eq_of_perm hmperm (nodup_of_resolveMethods (fun _ => rfl) hm).1, hsame]

end Description

/-! ### An example -/

namespace Shelf

/-- Books are kept under their places, of which the first one is returned by one method to
    another. -/
def description : Description where
  classes := [⟨"Atlas", some "Book"⟩, ⟨"Book", none⟩]
  methods := [
    { name := "Atlas.open", receiver := some "this", body := [.ret none] },
    { name := "Book.open", receiver := some "this", body := [.ret none] },
    { name := "Book.place"
      body := [.call (some "r") "Shelf.first" [], .ret (some (.var "r"))] },
    { name := "Main.main"
      body := [.new "m" "Map", .new "b" "Atlas", .call (some "k") "Book.place" [],
        .virtualCall none "m" "put" [.var "k", .var "b"], .virtualCall none "b" "open" [],
        .ret none] },
    { name := "Shelf.first", body := [.ret (some (.const (.int 1)))] }]
  unreachable := ["Book.open", "Shelf.first"]

/-- All declarations the other way round. -/
def backwards : Description where
  classes := description.classes.reverse
  methods := description.methods.reverse
  unreachable := description.unreachable.reverse

def var (name : String) : Local := ⟨⟨"Main.main"⟩, name⟩

def mainActions : List Action :=
  [.assign (var "m") (.alloc ⟨"Map"⟩), .assign (var "b") (.alloc ⟨"Atlas"⟩),
    .assign (var "k") (.call ⟨.static ⟨"Book.place"⟩, []⟩),
    .store (var "m") (.key "1") (var "b"), .call ⟨.virtual (var "b") "open", []⟩, .ret none]

def program : Program where
  classes := [⟨⟨"Atlas"⟩, some ⟨"Book"⟩⟩, ⟨⟨"Book"⟩, none⟩]
  methods := [
    .ofActions ⟨"Atlas.open"⟩ (some ⟨⟨"Atlas.open"⟩, "this"⟩) [] [.ret none],
    .ofActions ⟨"Book.open"⟩ (some ⟨⟨"Book.open"⟩, "this"⟩) [] [.ret none],
    .ofActions ⟨"Book.place"⟩ none [] [
      .assign ⟨⟨"Book.place"⟩, "r"⟩ (.call ⟨.static ⟨"Shelf.first"⟩, []⟩),
      .ret (some (.var ⟨⟨"Book.place"⟩, "r"⟩))],
    .ofActions ⟨"Main.main"⟩ none [] mainActions,
    .ofActions ⟨"Shelf.first"⟩ none [] [.ret (some (.const (.int 1)))]]
  unreachable := [⟨"Book.open"⟩, ⟨"Shelf.first"⟩]

/-- The statement at a place of the main method. -/
def stmt (index : Nat) : Statement := ⟨⟨"Main.main"⟩, index, mainActions[index]?.getD .nop⟩

theorem resolve_description : description.resolve = .ok program := by
  refine Description.resolve_eq_ok_iff.2 ⟨program.classes, program.methods, rfl, rfl, ?_⟩
  have hclasses : sortedBy Class.name program.classes = program.classes :=
    List.mergeSort_of_pairwise (by decide)
  have hmethods : sortedBy Method.name program.methods = program.methods :=
    List.mergeSort_of_pairwise (by decide)
  have hunreachable : sorted program.unreachable = program.unreachable :=
    List.mergeSort_of_pairwise (by decide)
  rw [hclasses, hmethods]
  exact congrArg (Program.mk _ _) ((congrArg dropRepeats hunreachable).trans (by decide)).symm

/-- A call of a method of both classes has those of them in order, whatever the order of
    declaration. -/
theorem resolve_backwards : description.resolve = .ok program ∧ backwards.resolve = .ok program ∧
    (classHierarchy program).callees (stmt 4) = [⟨"Atlas.open"⟩, ⟨"Book.open"⟩] ∧
    (classHierarchy program).callers ⟨"Book.place"⟩ = [stmt 2] := by
  have hclasses : description.classes.Perm backwards.classes := (List.reverse_perm _).symm
  obtain ⟨hsame, -, -, -, hcallees, hcallers⟩ := Description.resolve_perm hclasses
    (List.reverse_perm _).symm (List.reverse_perm _).symm resolve_description
  refine ⟨resolve_description, hsame, ?_, ?_⟩
  · rw [hcallees]
    decide
  · rw [hcallers]
    decide

end Shelf

end DemandAlias
