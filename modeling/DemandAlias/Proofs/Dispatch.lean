import DemandAlias.Proofs.Description.Order
import DemandAlias.Proofs.Run.Sessions
import DemandAlias.Proofs.Schedule.Sharpening
import Mathlib.Combinatorics.Pigeonhole

/-!
# Two ways to resolve a call

The class hierarchy has for a virtual call what each declared class dispatches it to. On the fly a
call is dispatched on the classes of the objects that come to it, and the callers of a method are
looked for among the calls of its short name. The two agree as far as names and declarations do:

* a class dispatches a call to the method of the nearest of the classes that it extends, one after
  the other, that defines it, even if they extend one another (`Program.dispatch_finds_nearest`);
* the class hierarchy has what a class dispatches a call to exactly if the class is declared, so
  that what is found on the fly and missing there is called on objects of undeclared classes
  (`Session.covers_of_runs`);
* a call of the class hierarchy is among those of the short name of its callee exactly if it is not
  a virtual call of a name with a dot (`CallGraph.mem_callsNamed_iff_undotted`), since names are
  divided at their last dot.
-/

namespace DemandAlias

open MethodName (shortName)

variable {p : Program} {site : Statement} {className : ClassName} {name : String} {m : MethodName}

/-! ### Dotted names -/

theorem splitAtLastDot_eq_none_iff {cs : List Char} : splitAtLastDot cs = none ↔ '.' ∉ cs := by
  induction cs with
  | nil => simp [splitAtLastDot]
  | cons c cs ih =>
    rw [splitAtLastDot, mem_cons, not_or, ← ih, eq_comm (a := '.')]
    cases splitAtLastDot cs <;> simp

theorem length_of_splitAtLastDot {cs before after : List Char}
    (h : splitAtLastDot cs = some (before, after)) : after.length < cs.length := by
  fun_induction splitAtLastDot cs generalizing before with
  | case1 => cases h
  | case2 _ _ _ _ hcs ih =>
    cases h
    exact Nat.lt_succ_of_lt (ih hcs)
  | case3 =>
    cases h
    exact Nat.lt_succ_self _
  | case4 => cases h

/-- Behind a dot, the last dot is that of the rest, or else this one. -/
theorem splitAtLastDot_append (before after : List Char) :
    (splitAtLastDot (before ++ '.' :: after)).map (·.2) =
      some (((splitAtLastDot after).map (·.2)).getD after) := by
  induction before with
  | nil =>
    rw [List.nil_append, splitAtLastDot]
    cases splitAtLastDot after <;> rfl
  | cons _ _ ih =>
    obtain ⟨parts, hparts, hafter⟩ := map_eq_some_iff.1 ih
    rw [cons_append, splitAtLastDot, hparts, ← hafter]
    rfl

theorem toList_method (className : ClassName) (name : String) :
    (className.method name).text.toList = className.text.toList ++ '.' :: name.toList := by
  simp [ClassName.method]

/-- A name that is dispatched keeps what stands after its own last dot. -/
theorem shortName_method (className : ClassName) (name : String) :
    (className.method name).shortName = shortName ⟨name⟩ := by
  have hafter := splitAtLastDot_append className.text.toList name.toList
  rw [← toList_method] at hafter
  obtain ⟨⟨before, after⟩, hparts, rfl⟩ := map_eq_some_iff.1 hafter
  rw [shortName, afterLastDot?, hparts, shortName, afterLastDot?]
  cases splitAtLastDot name.toList <;> simp

theorem shortName_eq_text_iff {m : MethodName} : m.shortName = m.text ↔ '.' ∉ m.text.toList := by
  rw [← splitAtLastDot_eq_none_iff, shortName, afterLastDot?]
  cases hparts : splitAtLastDot m.text.toList with
  | none => simp
  | some =>
    have hlength := length_of_splitAtLastDot hparts
    refine iff_of_false (fun heq => ?_) (Option.some_ne_none _)
    rw [← heq] at hlength
    simp at hlength

theorem ClassName.method_inj {className' : ClassName}
    (h : className.method name = className'.method name) : className = className' := by
  have hlist := congrArg (fun m : MethodName => m.text.toList) h
  simp only [toList_method, List.append_cancel_right_eq] at hlist
  exact congrArg mk (String.toList_injective hlist)

/-! ### Dispatching -/

namespace Program

/-- A class of this name is declared. -/
def Declares (p : Program) (className : ClassName) : Prop := ∃ c ∈ p.classes, c.name = className

/-- The program creates objects of this class. -/
def Creates (p : Program) (className : ClassName) : Prop :=
  ∃ s ∈ p.statements, s.createdClass? = some className

/-- What a call is dispatched to belongs to the class or to one that others extend. -/
theorem exists_of_dispatchWithin {n : Nat} (h : p.dispatchWithin name n className = some m) :
    ∃ owner : ClassName, m = owner.method name ∧
      (owner = className ∨ ∃ extending, p.superclass? extending = some owner) := by
  induction n generalizing className with
  | zero => cases h
  | succ n ih =>
    rw [dispatchWithin] at h
    split at h
    · exact ⟨className, (some.inj h).symm, .inl rfl⟩
    · obtain ⟨superclass, hsuper, h⟩ := bind_eq_some_iff.1 h
      obtain ⟨owner, hm, rfl | hextends⟩ := ih h
      · exact ⟨owner, hm, .inr ⟨className, hsuper⟩⟩
      · exact ⟨owner, hm, .inr hextends⟩

theorem exists_of_superclass? {superclass : ClassName}
    (h : p.superclass? className = some superclass) :
    ∃ c ∈ p.classes, c.name = className ∧ c.superclass = some superclass := by
  obtain ⟨c, hc, hsuper⟩ := bind_eq_some_iff.1 h
  exact ⟨c, List.mem_of_find?_eq_some hc, by simpa using List.find?_some hc, hsuper⟩

theorem eq_of_dispatch (hundeclared : ¬p.Declares className)
    (h : p.dispatch className name = some m) : m = className.method name := by
  rw [dispatch, dispatchWithin] at h
  split at h
  · exact (some.inj h).symm
  · obtain ⟨superclass, hsuper, -⟩ := bind_eq_some_iff.1 h
    obtain ⟨c, hc, hname, -⟩ := exists_of_superclass? hsuper
    exact absurd ⟨c, hc, hname⟩ hundeclared

/-- The class that so many steps lead to, each from a class to the one it extends. -/
def ancestor? (p : Program) (className : ClassName) : Nat → Option ClassName
  | 0 => some className
  | i + 1 => (p.ancestor? className i).bind p.superclass?

/-- The method of this name of the class that so many steps lead to, if it is defined. -/
def implementation? (p : Program) (className : ClassName) (name : String) (i : Nat) :
    Option MethodName :=
  ((p.ancestor? className i).map (·.method name)).filter p.defines

theorem ancestor?_add (i j : Nat) :
    p.ancestor? className (i + j) = (p.ancestor? className i).bind (p.ancestor? · j) := by
  induction j with
  | zero => exact (Option.bind_fun_some _).symm
  | succ j ih =>
    rw [← Nat.add_assoc, ancestor?, ih, Option.bind_assoc]
    rfl

theorem implementation?_zero : p.implementation? className name 0 =
    if p.defines (className.method name) then some (className.method name) else none := rfl

theorem implementation?_succ (i : Nat) : p.implementation? className name (i + 1) =
    (p.superclass? className).bind (p.implementation? · name i) := by
  rw [implementation?, Nat.add_comm, ancestor?_add]
  show Option.filter _ (((p.superclass? className).bind _).map _) = _
  cases p.superclass? className <;> rfl

/-- Dispatching looks for the method in one class after the other. -/
theorem dispatchWithin_eq (n : Nat) : p.dispatchWithin name n className =
    (List.range n).findSome? (p.implementation? className name) := by
  induction n generalizing className with
  | zero => rfl
  | succ n ih =>
    rw [dispatchWithin, List.range_succ_eq_map, List.findSome?_cons, List.findSome?_map,
      implementation?_zero]
    split
    · rfl
    · simp only [Function.comp_def, implementation?_succ]
      cases p.superclass? className with
      | none => exact (List.findSome?_eq_none_iff.2 fun _ _ => rfl).symm
      | some superclass => exact ih

/-- A chain that is longer than there are classes comes to a class again. -/
theorem exists_lt_ancestor? {i : Nat} {owner : ClassName} (h : p.ancestor? className i = some owner)
    (hi : p.classes.length < i) : ∃ j < i, p.ancestor? className j = some owner := by
  -- Whatever extends a class is declared, so the pigeonhole principle applies.
  have hdeclared : ∀ j ∈ Finset.range i,
      p.ancestor? className j ∈ (p.classes.map fun c => some c.name).toFinset := by
    intro j hj
    obtain ⟨k, rfl⟩ := Nat.exists_eq_add_of_lt (Finset.mem_range.1 hj)
    rw [Nat.add_right_comm, ancestor?_add, ancestor?] at h
    obtain ⟨_, hsuper, -⟩ := bind_eq_some_iff.1 h
    obtain ⟨_, hj, hsuper⟩ := bind_eq_some_iff.1 hsuper
    obtain ⟨c, hc, rfl, -⟩ := exists_of_superclass? hsuper
    rw [hj]
    exact List.mem_toFinset.2 (List.mem_map_of_mem hc)
  have hcard : (p.classes.map fun c => some c.name).toFinset.card < (Finset.range i).card := by
    rw [Finset.card_range]
    exact Nat.lt_of_le_of_lt (List.toFinset_card_le _) (by rwa [List.length_map])
  obtain ⟨j, hj, k, hk, hne, heq⟩ := Finset.exists_ne_map_eq_of_card_lt_of_maps_to hcard hdeclared
  wlog hlt : j < k generalizing j k
  · exact this k hk j hj hne.symm heq.symm (lt_of_le_of_ne (Nat.le_of_not_lt hlt) hne.symm)
  obtain ⟨l, rfl⟩ := Nat.exists_eq_add_of_lt (Finset.mem_range.1 hk)
  refine ⟨j + (l + 1), by omega, ?_⟩
  rwa [ancestor?_add, heq, ← ancestor?_add]

section Nearest

variable {i : Nat} (h : p.implementation? className name i = some m)
  (hnearest : ∀ j < i, p.implementation? className name j = none)
include h hnearest

/-- The nearest class that defines the method is near enough to be come to. -/
theorem le_of_nearest : i ≤ p.classes.length := by
  by_contra hi
  rw [implementation?, Option.filter_eq_some_iff, map_eq_some_iff] at h
  obtain ⟨⟨owner, howner, rfl⟩, hdefined⟩ := h
  obtain ⟨j, hj, hagain⟩ := exists_lt_ancestor? howner (Nat.lt_of_not_le hi)
  have hnone := hnearest j hj
  rw [implementation?, hagain, map_some, Option.filter_some_pos hdefined] at hnone
  cases hnone

theorem dispatch_of_nearest : p.dispatch className name = some m := by
  obtain ⟨k, hk⟩ := Nat.exists_eq_add_of_le (le_of_nearest h hnearest)
  have hnone : (List.range i).findSome? (p.implementation? className name) = none :=
    List.findSome?_eq_none_iff.2 fun j hj => hnearest j (List.mem_range.1 hj)
  rw [dispatch, dispatchWithin_eq, hk, Nat.add_right_comm, List.range_add, List.range_succ]
  simp [hnone, h]

end Nearest

/-- Dispatching finds the method of the nearest class that defines it, however far that is, and
    fails exactly if none does. -/
theorem dispatch_finds_nearest (p : Program) (className : ClassName) (name : String) :
    (∀ m, p.dispatch className name = some m ↔ ∃ i, p.implementation? className name i = some m ∧
      ∀ j < i, p.implementation? className name j = none) ∧
    (p.dispatch className name = none ↔ ∀ i, p.implementation? className name i = none) := by
  by_cases h : ∃ i, p.implementation? className name i ≠ none
  · obtain ⟨m, hm⟩ := Option.ne_none_iff_exists'.1 (Nat.find_spec h)
    have hnearest : ∀ j < Nat.find h, p.implementation? className name j = none :=
      fun j hj => not_not.1 (Nat.find_min h hj)
    have hdispatch := dispatch_of_nearest hm hnearest
    refine ⟨fun m' => ⟨fun hm' => ?_, fun ⟨i, hi, hlt⟩ => dispatch_of_nearest hi hlt⟩, ?_⟩
    · cases hdispatch.symm.trans hm'
      exact ⟨_, hm, hnearest⟩
    · simpa [hdispatch] using h
  · simp only [ne_eq, not_exists, not_not] at h
    have hnone : p.dispatch className name = none := by
      rw [dispatch, dispatchWithin_eq]
      exact List.findSome?_eq_none_iff.2 fun i _ => h i
    simp [hnone, h]

section Resolved

variable {d : Description} (hp : d.resolve = .ok p)

include hp

theorem declares_of_superclass? {superclass : ClassName}
    (h : p.superclass? className = some superclass) : p.Declares superclass := by
  obtain ⟨c, hc, -, hsuper⟩ := exists_of_superclass? h
  obtain ⟨classes, methods, hclasses, -, rfl⟩ := Description.resolve_eq_ok_iff.1 hp
  obtain ⟨-, hdeclared, rfl⟩ := Description.resolveClasses_eq_ok_iff.1 hclasses
  obtain ⟨decl, hdecl, rfl⟩ := mem_map.1 (mem_mergeSort.1 hc)
  obtain ⟨text, htext, rfl⟩ := map_eq_some_iff.1 hsuper
  obtain ⟨decl', hdecl', rfl⟩ := mem_map.1 (hdeclared decl hdecl text htext)
  exact ⟨_, mem_mergeSort.2 (mem_map.2 ⟨decl', hdecl', rfl⟩), rfl⟩

/-- The class hierarchy has what a class dispatches a call to exactly if the class is declared. -/
theorem Invokes.mem_callees_iff (h : p.Invokes site name)
    (hm : p.dispatch className name = some m) :
    m ∈ (classHierarchy p).callees site ↔ p.Declares className := by
  obtain ⟨hsite, receiver, args, hcall⟩ := h
  rw [CallGraph.mem_callees_classHierarchy_iff]
  constructor
  · rintro ⟨-, c, hc, hmem⟩
    cases some.inj (hcall.symm.trans hc)
    obtain ⟨declared, hdeclared, hdispatch⟩ := mem_filterMap.1 hmem
    obtain ⟨owner, hmethod, howner⟩ := exists_of_dispatchWithin hdispatch
    have howns : p.Declares owner := by
      rcases howner with rfl | ⟨extending, hextends⟩
      · exact ⟨declared, hdeclared, rfl⟩
      · exact declares_of_superclass? hp hextends
    by_contra hundeclared
    -- The method of an undeclared class is its own, and is named for it.
    have hsame : owner = className :=
      ClassName.method_inj (hmethod.symm.trans (eq_of_dispatch hundeclared hm))
    exact hundeclared (hsame ▸ howns)
  · rintro ⟨declared, hdeclared, rfl⟩
    exact ⟨hsite, _, hcall, mem_filterMap.2 ⟨declared, hdeclared, hm⟩⟩

end Resolved

end Program

/-! ### Edges that are found on the fly -/

/-- The class hierarchy has the edge, or the call is dispatched on a class of which objects are
    created. -/
def Program.Resolves (p : Program) (e : CallEdge) : Prop :=
  e.callee ∈ (classHierarchy p).callees e.site ∨ ∃ name className,
    p.Invokes e.site name ∧ p.Creates className ∧ p.dispatch className name = some e.callee

theorem Program.Resolves.hasEdge {e : CallEdge} (h : p.Resolves e) : p.HasEdge e := by
  rcases h with hm | ⟨name, className, hinvokes, -, hdispatch⟩
  · exact (Builds.classHierarchy p).edges (CallGraph.Grows.mem_edges_into.2 hm)
  · exact ⟨hinvokes.1, defines_of_dispatch hdispatch⟩

namespace Vocabulary

/-- What a run can speak of, with no other edges than those that resolving a call may find. -/
def resolving {ω : Type} (V : Vocabulary p) (graph : CallGraph) : RunBound ω :=
  { V.bound graph with
    edge := fun _ e => p.Resolves e
    subscriber := fun N _ k => V.HasSubscriber N k ∧
      ∀ site name, k = .resolve site name → p.Invokes site name }

variable {ω : Type} {V : Vocabulary p} {N : Naming} {graph : CallGraph}

theorem links_resolving (h : p.Resolves ⟨site, m⟩) :
    (V.resolving graph : RunBound ω).Links site m := .inr ⟨h, h⟩

/-- The callees of a call of the program may be looked for. -/
theorem resolves_resolving (hsite : site ∈ p.statements)
    (hspoken : (V.bound graph : RunBound ω).Resolves p N site) :
    (V.resolving graph : RunBound ω).Resolves p N site := by
  unfold RunBound.Resolves at hspoken ⊢
  split at hspoken
  · next m args hcall =>
    intro hm
    refine links_resolving (.inl (CallGraph.mem_callees_classHierarchy_iff.2 ⟨hsite, _, hcall, ?_⟩))
    simp [CallGraph.possibleCallees, hm]
  · next receiver name args hcall =>
    refine ⟨hspoken.1, hspoken.2, fun site' name' heq => ?_⟩
    cases heq
    exact ⟨hsite, receiver, args, hcall⟩
  · trivial

theorem closed_resolving [Weight ω] {c : Setting ω} (hprogram : c.program = p) (hp : p.IsLaidOut)
    (graph : CallGraph) : (V.resolving graph).Closed c := by
  have hV : (V.bound graph).Closed c := closed_bound (hprogram ▸ hp.spans) graph
  have hadmits : ∀ {N}, (V.resolving graph : RunBound ω).Admits N →
      (V.bound graph : RunBound ω).Admits N := fun hN => ⟨hN.inj, hN.query⟩
  refine ⟨⟨hV.solver_mono, fun hN _ _ hk => hk.imp_left (HasSubscriber.mono hN), hV.start,
    fun {N sender q m size} hN hq hm hlegit => ?_, fun {N q k a size} hN hq hk hlegit ha => ?_⟩,
    fun hN hq _ _ hg => hV.closed (hadmits hN) hq fun he => (hg he).hasEdge⟩
  · have hpasses := hV.message (hadmits hN) hq hm hlegit
    cases m with
    | wanted x =>
      intro hfly site hsite
      have hspoken := hpasses hfly site hsite
      rw [hprogram] at hsite hspoken ⊢
      refine resolves_resolving ?_ hspoken
      cases x with
      | into => exact mem_singleton.1 hsite ▸ hm
      | outOf => exact (mem_filter.1 hsite).1
    | fieldWrite =>
      exact ⟨hpasses.1, hpasses.2, fun _ _ => nofun⟩
    | _ => exact hpasses
  · have hnotifies := hV.notice (hadmits hN) hq hk.1 hlegit ha
    cases k with
    | resolve _ name =>
      -- The receiver is created by a statement of the program.
      intro m hm
      obtain ⟨className, hclass, hdispatch⟩ := bind_eq_some_iff.1 hm
      rw [hprogram] at hdispatch
      exact links_resolving (.inr ⟨name, className, hk.2 _ _ rfl, ⟨_, ha.1, hclass⟩, hdispatch⟩)
    | _ => exact hnotifies

end Vocabulary

/-- The class hierarchy has all edges of the run, but for calls on objects that are created and
    whose class is not declared. -/
def Run.CoveredByHierarchy {ω : Type} (p : Program) (r : Run ω) : Prop :=
  ∀ site m, m ∈ r.graph.callees site → m ∈ (classHierarchy p).callees site ∨
    ∃ name className, p.Invokes site name ∧ p.Creates className ∧ ¬p.Declares className ∧
      p.dispatch className name = some m

namespace Session

variable {ω : Type} [Weight ω] [DecidableEq ω] [ZeroFree ω] {c : Setting ω} {session : Session ω}
  {q : Query} {r : Run ω}

theorem Runs.within_resolving (h : session.Runs q r) (hprogram : session.setting.program = p)
    (hp : p.IsLaidOut) (hc : session.setting.weighing.ZeroFree)
    (hgraph : ∀ {x : Crossing} {e}, e ∈ x.edges session.graph → p.Resolves e)
    (hq : q.node.stmt ∈ p.statements) :
    r.Within ((Vocabulary.asking p q.node.var).resolving session.graph) :=
  h.within hc (Vocabulary.closed_resolving hprogram hp session.graph) rfl hgraph
    ⟨hq, mem_cons_self⟩ fun _ => ⟨trivial, fun _ _ => nofun⟩

theorem Arises.resolves (h : Arises c session) (hp : c.program.IsLaidOut)
    (hc : c.weighing.ZeroFree) {x : Crossing} {e : CallEdge} (he : e ∈ x.edges session.graph) :
    c.program.Resolves e := by
  induction h generalizing x e with
  | start =>
    unfold Session.start at he
    dsimp only at he
    split at he
    · rw [CallGraph.edges_empty] at he
      cases he
    · refine .inl ?_
      cases x with
      | into =>
        obtain ⟨m, hm, rfl⟩ := mem_map.1 he
        exact hm
      | outOf =>
        obtain ⟨site, hsite, rfl⟩ := mem_map.1 he
        exact CallGraph.mem_callers_classHierarchy.1 hsite
  | keep h hq hr ih =>
    obtain rfl := h.setting_eq
    exact (hr.within_resolving rfl hp hc ih hq).edge he

theorem Arises.coveredByHierarchy {d : Description} (h : Arises c session)
    (hp : d.resolve = .ok c.program) (hc : c.weighing.ZeroFree)
    (hq : q.node.stmt ∈ c.program.statements) (hr : session.Runs q r) :
    r.CoveredByHierarchy c.program := by
  have hlaid := isLaidOut_of_resolve hp
  obtain rfl := h.setting_eq
  intro site m hm
  have hwithin := hr.within_resolving rfl hlaid hc (h.resolves hlaid hc) hq
  have hresolves : session.setting.program.Resolves ⟨site, m⟩ :=
    hwithin.edge (CallGraph.Grows.mem_edges_into.2 hm)
  rcases hresolves with hm | ⟨name, className, hinvokes, hcreates, hdispatch⟩
  · exact .inl hm
  · by_cases hdeclared : session.setting.program.Declares className
    · exact .inl ((hinvokes.mem_callees_iff hp hdispatch).2 hdeclared)
    · exact .inr ⟨name, className, hinvokes, hcreates, hdeclared, hdispatch⟩

/-- The class hierarchy has what a class dispatches a virtual call to exactly if the class is
    declared. It covers the calls of every run, whatever was asked before and however calls are
    resolved, but for those on objects of undeclared classes. -/
theorem covers_of_runs {d : Description} (hp : d.resolve = .ok p) (scope : Scope)
    (options : Options) {q : Query} (hq : q.node.stmt ∈ p.statements) :
    (∀ site name className m, p.Invokes site name → p.dispatch className name = some m →
      (m ∈ (classHierarchy p).callees site ↔ p.Declares className)) ∧
    (∀ (session : Session Reach) (r : Run Reach), Arises ⟨p, scope, .reach, options⟩ session →
      session.Runs q r → r.CoveredByHierarchy p) ∧
    ∀ (session : Session Trail) (r : Run Trail), Arises ⟨p, scope, .trail, options⟩ session →
      session.Runs q r → r.CoveredByHierarchy p := by
  refine ⟨fun site name className m hinvokes hm => hinvokes.mem_callees_iff hp hm,
    fun session r h hr => ?_, fun session r h hr => ?_⟩
  · exact h.coveredByHierarchy hp zeroFree_reach hq hr
  · exact h.coveredByHierarchy hp zeroFree_trail hq hr

end Session

namespace Pets

/-- An object of a class that is not declared is called, and one of a class that is by a name with
    a dot. -/
def description : Description where
  classes := [{ name := "Dog" }]
  methods := [
    { name := "Cat.call", receiver := some "this" },
    { name := "Dog.come.here", receiver := some "this" },
    { name := "Main.main"
      body := [.new "x" "Cat", .virtualCall none "x" "call" [], .new "y" "Dog",
        .virtualCall none "y" "come.here" [], .call none "Dog.come.here" []] }]

def var (name : String) : Local := ⟨⟨"Main.main"⟩, name⟩

def actions : List Action :=
  [.assign (var "x") (.alloc ⟨"Cat"⟩), .call ⟨.virtual (var "x") "call", []⟩,
    .assign (var "y") (.alloc ⟨"Dog"⟩), .call ⟨.virtual (var "y") "come.here", []⟩,
    .call ⟨.static ⟨"Dog.come.here"⟩, []⟩, .ret none]

/-- The statement at a place of the main method. -/
def stmt (index : Nat) : Statement := ⟨⟨"Main.main"⟩, index, actions[index]?.getD .nop⟩

def program : Program where
  classes := [⟨⟨"Dog"⟩, none⟩]
  methods := [.ofActions ⟨"Cat.call"⟩ (some ⟨⟨"Cat.call"⟩, "this"⟩) [] [.ret none],
    .ofActions ⟨"Dog.come.here"⟩ (some ⟨⟨"Dog.come.here"⟩, "this"⟩) [] [.ret none],
    .ofActions ⟨"Main.main"⟩ none [] actions]
  unreachable := []

theorem resolve_description : description.resolve = .ok program :=
  Description.resolve_inOrder rfl rfl rfl (by decide) (by decide)

theorem invokes_call : program.Invokes (stmt 1) "call" := ⟨by decide, var "x", [], rfl⟩

theorem not_declares : ¬program.Declares ⟨"Cat"⟩ := by
  rintro ⟨c, hc, hname⟩
  rw [mem_singleton.1 hc] at hname
  exact absurd hname (by decide)

theorem dispatch_call : program.dispatch ⟨"Cat"⟩ "call" = some ⟨"Cat.call"⟩ := by decide

/-- Calls are resolved when they are come to. -/
def setting {ω : Type} (weighing : Weighing ω) : Setting ω :=
  ⟨program, .everything, weighing, { onTheFly := true }⟩

/-- What is called on the object of the undeclared class? -/
def query : ForwardQuery := ⟨⟨stmt 0, var "x"⟩, rfl⟩

/-- There is a run that finds what is called. -/
theorem exists_called {ω : Type} [Weight ω] [DecidableEq ω] {weighing : Weighing ω}
    (h : ⟨stmt 1, ⟨"Cat.call"⟩⟩ ∈ ((Run.Listing.beginForward (setting weighing) query).advance
      (setting weighing) 0 38).edges)
    (hcovers : ∀ session r, Session.Arises (setting weighing) session →
      session.Runs (.forward query) r → r.CoveredByHierarchy program) :
    ∃ r, (Session.start (setting weighing)).Runs (.forward query) r ∧
      r.CoveredByHierarchy program ∧ ⟨"Cat.call"⟩ ∈ r.graph.callees (stmt 1) := by
  obtain ⟨r, hr, hlisted⟩ := Session.exists_runs (setting weighing) (.forward query) 38
  exact ⟨_, hr, hcovers _ _ .start hr, List.contains_iff_mem.1 ((hlisted.edges.hasEdge _ _).2 h)⟩

end Pets

open Pets

/-- What is called on the object is found on the fly, and its class is not declared. -/
theorem Session.covers_pets : description.resolve = .ok program ∧
    query.node.stmt ∈ program.statements ∧ program.Invokes (stmt 1) "call" ∧
    program.dispatch ⟨"Cat"⟩ "call" = some ⟨"Cat.call"⟩ ∧
    (⟨"Cat.call"⟩ ∈ (classHierarchy program).callees (stmt 1) ↔
      program.Declares ⟨"Cat"⟩) ∧
    (∃ r, (start (Pets.setting .reach)).Runs (.forward query) r ∧
      r.CoveredByHierarchy program ∧ ⟨"Cat.call"⟩ ∈ r.graph.callees (stmt 1)) ∧
    ∃ r, (start (Pets.setting .trail)).Runs (.forward query) r ∧
      r.CoveredByHierarchy program ∧ ⟨"Cat.call"⟩ ∈ r.graph.callees (stmt 1) := by
  have hq : query.node.stmt ∈ program.statements := by decide
  obtain ⟨hiff, hreach, htrail⟩ := covers_of_runs resolve_description .everything
    { onTheFly := true } (q := .forward query) hq
  exact ⟨resolve_description, hq, invokes_call, dispatch_call,
    hiff _ _ _ _ invokes_call dispatch_call,
    exists_called (by decide +kernel) hreach, exists_called (by decide +kernel) htrail⟩

/-- The class hierarchy does not have what is called on an object of an undeclared class. -/
theorem CallGraph.not_mem_callees_undeclared : description.resolve = .ok program ∧
    program.Invokes (stmt 1) "call" ∧ program.Creates ⟨"Cat"⟩ ∧
    program.dispatch ⟨"Cat"⟩ "call" = some ⟨"Cat.call"⟩ ∧
    ⟨"Cat.call"⟩ ∉ (classHierarchy program).callees (stmt 1) := by
  refine ⟨resolve_description, invokes_call, ⟨stmt 0, by decide, rfl⟩,
    dispatch_call, fun hm => not_declares ?_⟩
  exact (invokes_call.mem_callees_iff resolve_description dispatch_call).1 hm

/-- A call of the class hierarchy is found by the short name of its callee exactly if it is not a
    virtual call of a name with a dot. -/
theorem CallGraph.mem_callsNamed_iff_undotted (hm : m ∈ (classHierarchy p).callees site) :
    site ∈ p.callsNamed m.shortName ↔ ∀ name, p.Invokes site name → '.' ∉ name.toList := by
  obtain ⟨hsite, c, hcall, hmem⟩ := mem_callees_classHierarchy_iff.1 hm
  have hnamed : site ∈ p.callsNamed m.shortName ↔ c.methodName = m.shortName := by
    simp [Program.callsNamed, hsite, hcall]
  rw [hnamed]
  obtain ⟨method | ⟨receiver, name⟩, args⟩ := c
  · -- The callee of a static call is the method itself.
    have hmethod : m = method := by
      simp only [possibleCallees] at hmem
      split at hmem
      · exact mem_singleton.1 hmem
      · cases hmem
    subst hmethod
    refine iff_of_true rfl ?_
    rintro name ⟨-, receiver, args', hvirtual⟩
    cases hcall.symm.trans hvirtual
  · obtain ⟨declared, -, hdispatch⟩ := mem_filterMap.1 hmem
    obtain ⟨owner, rfl, -⟩ := Program.exists_of_dispatchWithin hdispatch
    have hundotted : name = shortName ⟨name⟩ ↔ '.' ∉ name.toList :=
      eq_comm.trans (shortName_eq_text_iff (m := ⟨name⟩))
    rw [shortName_method]
    refine hundotted.trans ⟨?_, fun h => h name ⟨hsite, receiver, args, hcall⟩⟩
    rintro hdot name' ⟨-, receiver', args', hvirtual⟩
    cases hcall.symm.trans hvirtual
    exact hdot

/-- A static call is found by the short name of its callee, and so is a virtual call of a name
    without a dot. -/
theorem CallGraph.mem_callsNamed_pets :
    (⟨"Dog.come.here"⟩ ∈ (classHierarchy program).callees (stmt 4) ∧
      stmt 4 ∈ program.callsNamed (shortName ⟨"Dog.come.here"⟩)) ∧
    ⟨"Box.set"⟩ ∈ (classHierarchy Boxes.program).callees (Boxes.stmt 2) ∧
    Boxes.stmt 2 ∈ Boxes.program.callsNamed (shortName ⟨"Box.set"⟩) := by
  have hm : ⟨"Dog.come.here"⟩ ∈ (classHierarchy program).callees (stmt 4) :=
    mem_callees_classHierarchy_iff.2 ⟨by decide, _, rfl, by decide⟩
  have hm' : ⟨"Box.set"⟩ ∈ (classHierarchy Boxes.program).callees (Boxes.stmt 2) :=
    mem_callees_classHierarchy_iff.2 ⟨by decide, _, rfl, by decide⟩
  refine ⟨⟨hm, (mem_callsNamed_iff_undotted hm).2 ?_⟩, hm', (mem_callsNamed_iff_undotted hm').2 ?_⟩
  · rintro name ⟨-, receiver, args, hvirtual⟩
    cases hvirtual
  · rintro name ⟨-, receiver, args, hvirtual⟩
    cases hvirtual
    decide

/-- A virtual call of a name with a dot is not. -/
theorem CallGraph.not_mem_callsNamed_dotted : description.resolve = .ok program ∧
    ⟨"Dog.come.here"⟩ ∈ (classHierarchy program).callees (stmt 3) ∧
    stmt 3 ∉ program.callsNamed (shortName ⟨"Dog.come.here"⟩) := by
  refine ⟨resolve_description, ?_, by decide +kernel⟩
  exact mem_callees_classHierarchy_iff.2 ⟨by decide, _, rfl, by decide⟩

end DemandAlias
