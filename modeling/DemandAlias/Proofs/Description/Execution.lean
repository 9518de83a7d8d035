import DemandAlias.Description.Resolve
import DemandAlias.Proofs.Description.Constants
import Mathlib.Logic.Function.Basic

/-!
# Executions of described methods

What the methods of a description do when they run, as far as constants are concerned: what is
passed to a method, read from a field, newly created or returned by a method that is not
described may be any value, and branches go either way. A local is undefined until it is
written, and no instruction runs that reads an undefined one.

A local that is known to be a constant is never seen to hold anything else
(`MethodDecl.Reaches.holdsConstants`), hence a method that is known to return a constant returns
nothing else, and a map is accessed under a key only where the key has been computed to be that
one (`MethodDecl.constant_of_reaches`).
-/

namespace DemandAlias

variable {m : MethodDecl}

/-! ### Values -/

/-- What a local may hold: a constant, or another value, which is an `ο`. -/
inductive Content (ο : Type) where
  | constant (c : Constant)
  | other (o : ο)

/-- What the locals of a method hold, as far as they are defined. -/
abbrev Contents (ο : Type) := String → Option (Content ο)

variable {ο : Type}

/-- What an operand is. -/
def Contents.value (env : Contents ο) : Operand String → Option (Content ο)
  | .const c => some (.constant c)
  | .var l => env l

/-! ### Executions -/

namespace Instruction

/-- What an instruction reads. -/
def reads : Instruction → List (Operand String)
  | .copy _ rhs => [.var rhs]
  | .load _ base _ => [.var base]
  | .store base _ rhs => [.var base, .var rhs]
  | .call _ _ args => args
  | .virtualCall _ base _ args => .var base :: args
  | .branch lhs _ rhs _ => [.var lhs, rhs]
  | .ret value => value.toList
  | .new _ _ | .const _ _ | .jump _ | .nop => []

/-- The places where control may be after the instruction at a place. -/
def placesAfter (place : Nat) : Instruction → List Nat
  | .ret _ => []
  | .jump target => [target]
  | .branch _ _ _ target => [place + 1, target]
  | _ => [place + 1]

/-- All that the instruction reads is defined. -/
def Ready (env : Contents ο) (instruction : Instruction) : Prop :=
  ∀ o ∈ instruction.reads, (env.value o).isSome

/-- What an instruction may write that runs none of the methods `methods`: a constant or a copy
    what it says, and everything else any value. -/
def MayWrite (methods : List MethodDecl) (env : Contents ο) (v : Content ο) : Instruction → Prop
  | .const _ value => v = .constant value
  | .copy _ rhs => env rhs = some v
  | .call _ method _ => method ∉ methods.map MethodDecl.name
  | _ => True

end Instruction

namespace MethodDecl

variable {known : ConstantResults}
variable {env : Contents ο} {l : String} {c : Constant}

/-- The method returns `result`, if anything, at a place. Where its body ends it returns
    nothing, unless control cannot get there. -/
inductive ReturnsAt (m : MethodDecl) (env : Contents ο) : Nat → Option (Content ο) → Prop
  | ret {place : Nat} {value : Option (Operand String)}
      (hat : m.body[place]? = some (.ret value)) (hready : (Instruction.ret value).Ready env) :
    ReturnsAt m env place (value.bind env.value)
  | fall (hexit : m.endsInExit = false) : ReturnsAt m env m.body.length none

theorem ReturnsAt.operand {place : Nat} {o : Operand String} {v : Content ο}
    (hat : m.body[place]? = some (.ret (some o))) (hv : env.value o = some v) :
    m.ReturnsAt env place (some v) := by
  rw [← hv, ← Option.bind_some o env.value]
  refine .ret hat fun o' ho' => ?_
  obtain rfl : o' = o := mem_singleton.1 ho'
  exact Option.isSome_of_eq_some hv

/-- In some execution of the method, control is at a place and the locals hold `env`. -/
inductive Reaches (methods : List MethodDecl) : MethodDecl → Nat → Contents ο → Prop
  /-- At first, exactly what is passed is defined. -/
  | start {m : MethodDecl} {env : Contents ο}
      (hpassed : ∀ l, (env l).isSome ↔ l ∈ m.params ∨ m.receiver = some l) :
    Reaches methods m 0 env
  /-- An instruction that writes no local. A call of this kind goes on whatever its callee does. -/
  | skip {m : MethodDecl} {place after : Nat} {env : Contents ο} {instruction : Instruction}
      (h : Reaches methods m place env) (hat : m.body[place]? = some instruction)
      (hready : instruction.Ready env) (hdefined : instruction.defined? = none)
      (hafter : after ∈ instruction.placesAfter place) :
    Reaches methods m after env
  /-- An instruction that writes a local without running a described method. -/
  | write {m : MethodDecl} {place : Nat} {env : Contents ο} {instruction : Instruction}
      {l : String} {v : Content ο}
      (h : Reaches methods m place env) (hat : m.body[place]? = some instruction)
      (hready : instruction.Ready env) (hdefined : instruction.defined? = some l)
      (hv : instruction.MayWrite methods env v) :
    Reaches methods m (place + 1) (Function.update env l (some v))
  /-- A call of a described method, which keeps what an execution of that method returns. -/
  | call {m callee : MethodDecl} {place exit : Nat} {env inner : Contents ο} {l : String}
      {args : List (Operand String)} {result : Option (Content ο)}
      (h : Reaches methods m place env)
      (hat : m.body[place]? = some (.call (some l) callee.name args))
      (hready : (Instruction.call (some l) callee.name args).Ready env)
      (hcallee : callee ∈ methods) (hinner : Reaches methods callee exit inner)
      (hresult : callee.ReturnsAt inner exit result) :
    Reaches methods m (place + 1) (Function.update env l result)

/-- Some execution of the method returns `result`, if anything. -/
def Returns (methods : List MethodDecl) (m : MethodDecl) (result : Option (Content ο)) : Prop :=
  ∃ place env, Reaches methods m place env ∧ m.ReturnsAt env place result

/-! ### Known constants -/

/-- The only instruction that writes a constant local assigns the constant to it, or calls a
    method known to return it. -/
theorem writes_of_constantOf? (h : m.constantOf? known l = some c) {instruction : Instruction}
    (hmem : instruction ∈ m.body) (hdefined : instruction.defined? = some l) :
    instruction = .const l c ∨
      ∃ method args, instruction = .call (some l) method args ∧ known.lookup method = some c := by
  have hmem' : instruction ∈ m.body.filter fun i => i.defined? == some l :=
    mem_filter.2 ⟨hmem, beq_iff_eq.2 hdefined⟩
  unfold constantOf? at h
  split at h
  · cases h
  · split at h
    · next x value heq =>
      rw [heq, mem_singleton] at hmem'
      subst hmem'
      cases h
      cases hdefined
      exact .inl rfl
    · next x method args heq =>
      rw [heq, mem_singleton] at hmem'
      subst hmem'
      cases hdefined
      exact .inr ⟨method, args, rfl, h⟩
    · cases h

/-- The constant locals hold their constants or are undefined. -/
def HoldsConstants (m : MethodDecl) (known : ConstantResults) (env : Contents ο) : Prop :=
  ∀ l c, m.constantOf? known l = some c → ∀ v, env l = some v → v = .constant c

theorem HoldsConstants.value (h : m.HoldsConstants known env) {o : Operand String}
    (hc : m.constantOperand? known o = some c) {v : Content ο} (hv : env.value o = some v) :
    v = .constant c := by
  cases o with
  | const =>
    cases hc
    cases hv
    rfl
  | var l => exact h l c hc v hv

/-- Writing to a local keeps the constants if the local is not known to hold another one. -/
theorem HoldsConstants.update (h : m.HoldsConstants known env) {result : Option (Content ο)}
    (hl : ∀ c, m.constantOf? known l = some c → ∀ v, result = some v → v = .constant c) :
    m.HoldsConstants known (Function.update env l result) := by
  intro l' c hc v hv
  by_cases heq : l' = l
  · subst heq
    rw [Function.update_self] at hv
    exact hl c hc v hv
  · rw [Function.update_of_ne heq] at hv
    exact h l' c hc v hv

end MethodDecl

/-- Methods known to return constants are described, and return nothing else. -/
structure ConstantResults.Sound (ο : Type) (methods : List MethodDecl) (known : ConstantResults) :
    Prop where
  described : ∀ {name c}, known.lookup name = some c → name ∈ methods.map MethodDecl.name
  returns : ∀ {m c}, m ∈ methods → known.lookup m.name = some c →
    ∀ {result : Option (Content ο)}, m.Returns methods result → result = some (.constant c)

namespace MethodDecl

open ConstantResults

variable {methods : List MethodDecl} {known : ConstantResults}

/-- Whatever runs, constant locals hold their constants. -/
theorem Reaches.holdsConstants (hknown : Sound ο methods known) {place : Nat} {env : Contents ο}
    (h : Reaches methods m place env) : m.HoldsConstants known env := by
  induction h with
  | start hpassed =>
    intro l c hc v hv
    have hl := (hpassed l).1 (Option.isSome_of_eq_some hv)
    rw [constantOf?, if_pos (by simpa using hl)] at hc
    cases hc
  | skip _ _ _ _ _ ih => exact ih
  | write _ hat _ hdefined hv ih =>
    refine ih.update fun c hc v hresult => ?_
    cases hresult
    rcases writes_of_constantOf? hc (List.mem_of_getElem? hat) hdefined with
      rfl | ⟨method, args, rfl, hmethod⟩
    · exact hv
    · exact absurd (hknown.described hmethod) hv
  | call _ hat _ hcallee hinner hresult ih =>
    -- What is known of the callee says all about its execution, so that the induction does not
    -- have to go into it.
    refine ih.update fun c hc v hv => ?_
    rcases writes_of_constantOf? hc (List.mem_of_getElem? hat) rfl with
      heq | ⟨method, args, heq, hmethod⟩
    · cases heq
    · cases heq
      have hreturned := hknown.returns hcallee hmethod ⟨_, _, hinner, hresult⟩
      rw [hv] at hreturned
      exact some.inj hreturned

/-- If a method always returns a constant, control never falls off its end, and all its returns
    are known to return that. -/
theorem of_constantResult? {c : Constant} (h : m.constantResult? known = some c) :
    m.endsInExit = true ∧
      ∀ value, .ret value ∈ m.body → value.bind (m.constantOperand? known) = some c := by
  unfold constantResult? at h
  split at h
  · next hexit =>
    refine ⟨hexit, fun value hmem => ?_⟩
    have hreturned : value.bind (m.constantOperand? known) ∈ m.returned known :=
      mem_filterMap.2 ⟨_, hmem, rfl⟩
    split at h
    · next c' others heq =>
      rw [heq] at hreturned
      split at h
      · next hall =>
        cases h
        rcases mem_cons.1 hreturned with hfirst | hothers
        · exact hfirst
        · exact beq_iff_eq.1 (List.all_eq_true.1 hall _ hothers)
      · cases h
    · cases h
  · cases h

/-- A method that always returns a constant, as far as is known, does so. -/
theorem returns_of_constantResult? (hknown : Sound ο methods known) {c : Constant}
    (h : m.constantResult? known = some c) {result : Option (Content ο)}
    (hresult : m.Returns methods result) : result = some (.constant c) := by
  obtain ⟨hexit, hreturned⟩ := of_constantResult? h
  obtain ⟨place, env, hreaches, hat⟩ := hresult
  cases hat with
  | fall hfall => simp [hexit] at hfall
  | ret hat hready =>
    have hconstant := hreturned _ (List.mem_of_getElem? hat)
    obtain ⟨o, rfl, ho⟩ := bind_eq_some_iff.1 hconstant
    obtain ⟨v, hv⟩ := isSome_iff_exists.1 (hready o (mem_singleton.2 rfl))
    exact hv.trans (congrArg some ((hreaches.holdsConstants hknown).value ho hv))

end MethodDecl

namespace ConstantResults

section

variable {methods : List MethodDecl} (hnodup : (methods.map MethodDecl.name).Nodup)
include hnodup

/-- What a round finds is so. -/
theorem Sound.round {known : ConstantResults} (h : Sound ο methods known) :
    Sound ο methods (known ++ found methods known) where
  described hlookup := by
    rw [List.lookup_append, Option.or_eq_some_iff] at hlookup
    rcases hlookup with hold | ⟨-, hnew⟩
    · exact h.described hold
    · obtain ⟨m, hm, rfl, -⟩ := mem_found_iff.1 (mem_of_lookup hnew)
      exact List.mem_map_of_mem hm
  returns := by
    intro m c hm hlookup result hresult
    rw [List.lookup_append, Option.or_eq_some_iff] at hlookup
    rcases hlookup with hold | ⟨-, hnew⟩
    · exact h.returns hm hold hresult
    · obtain ⟨m', hm', hname, -, hc⟩ := mem_found_iff.1 (mem_of_lookup hnew)
      -- Only `m` has its name, so it is `m` that was found.
      obtain rfl : m' = m := List.inj_on_of_nodup_map hnodup hm' hm hname
      exact MethodDecl.returns_of_constantResult? h hc hresult

theorem sound_ofMethods : Sound ο methods (ofMethods methods) :=
  afterRounds_induction (fun _ h => h.round hnodup) _ ⟨nofun, nofun⟩

end

end ConstantResults

/-- The field of a map under a key has the text of the key, which is known. -/
theorem Field.ofKey_eq_key_iff {c : Option Constant} {text : String} :
    Field.ofKey c = .key text ↔
      c = some (.str text) ∨ ∃ value : Int, c = some (.int value) ∧ toString value = text := by
  rcases c with - | (value | value | -) <;> simp [Field.ofKey]

namespace MethodDecl

open ConstantResults

/-- A method found to return a constant returns nothing else in any of its executions, and a
    method not found may return what is not known. Where the field of a map is that of one key,
    the operand that is the key is undefined or a number or a text that is written so, in every
    execution of the method. -/
theorem constant_of_reaches {methods : List MethodDecl}
    (hnodup : (methods.map MethodDecl.name).Nodup) :
    (∀ m ∈ methods, ∀ c, (ofMethods methods).lookup m.name = some c →
      ∀ result : Option (Content ο), m.Returns methods result → result = some (.constant c)) ∧
    (∀ m ∈ methods, (ofMethods methods).lookup m.name = none →
      m.constantResult? (ofMethods methods) = none) ∧
    ∀ ctx : MethodContext, ctx.results = ofMethods methods →
      ∀ place (env : Contents ο), ctx.decl.Reaches methods place env →
      ∀ key text, ctx.keyField key = .key text → ∀ v, env.value key = some v →
        v = .constant (.str text) ∨
          ∃ value : Int, v = .constant (.int value) ∧ toString value = text := by
  have hsound : Sound ο methods (ofMethods methods) := sound_ofMethods hnodup
  refine ⟨fun m hm c hc result hresult => hsound.returns hm hc hresult,
    fun m hm h => constantResult?_of_not_found hm h, ?_⟩
  rintro ctx hresults place env hreaches key text hfield v hv
  have hholds := hreaches.holdsConstants hsound
  rw [MethodContext.keyField, hresults, Field.ofKey_eq_key_iff] at hfield
  rcases hfield with hstr | ⟨value, hint, htext⟩
  · exact .inl (hholds.value hstr hv)
  · exact .inr ⟨value, hholds.value hint hv, htext⟩

end MethodDecl

/-! ### An example -/

namespace Keyring

/-- Returns a number by way of another method, or after calling itself. -/
def pick : MethodDecl where
  name := "Key.pick"
  params := ["n"]
  body := [.branch "n" .eq (.const (.int 0)) 3, .call (some "r") "Key.spare" [],
    .ret (some (.var "r")), .call (some "s") "Key.pick" [.var "n"], .ret (some (.const (.int 7)))]

def spare : MethodDecl where
  name := "Key.spare"
  body := [.ret (some (.const (.int 7)))]

/-- Reads from a map under the number. -/
def main : MethodDecl where
  name := "Main.main"
  params := ["m"]
  body := [.call (some "k") "Key.pick" [.var "m"], .virtualCall (some "v") "m" "get" [.var "k"],
    .ret none]

def methods : List MethodDecl := [main, pick, spare]

def context : MethodContext where
  decl := main
  results := .ofMethods methods
  putWritesMap := true
  getReadsMap := true

/-- Only the parameter `l` is defined. -/
def passed (l : String) : Contents Nat := Function.update (fun _ => none) l (some (.other 0))

theorem isSome_passed (l l' : String) : (passed l l').isSome ↔ l' = l := by
  by_cases h : l' = l <;> simp [passed, h]

theorem returns_spare : spare.Returns methods (some (.constant (.int 7) : Content Nat)) := by
  have hstart : spare.Reaches methods 0 (fun _ => none : Contents Nat) :=
    .start fun l => by simp [spare]
  exact ⟨0, _, hstart, .operand rfl rfl⟩

theorem returns_pick : pick.Returns methods (some (.constant (.int 7) : Content Nat)) := by
  have hstart : pick.Reaches methods 0 (passed "n") := .start fun l => by simp [isSome_passed, pick]
  have hbranch : pick.Reaches methods 1 (passed "n") :=
    hstart.skip rfl (by simp [Instruction.Ready, Instruction.reads, Contents.value, isSome_passed])
      rfl (by simp [Instruction.placesAfter])
  obtain ⟨exit, inner, hinner, hresult⟩ := returns_spare
  have hcall := hbranch.call (l := "r") rfl (fun o ho => absurd ho not_mem_nil)
    (by decide) hinner hresult
  exact ⟨2, _, hcall, .operand rfl (by simp [Contents.value])⟩

theorem reaches_get : ∃ env : Contents Nat, main.Reaches methods 1 env ∧
    env.value (.var "k") = some (.constant (.int 7)) := by
  have hstart : main.Reaches methods 0 (passed "m") := .start fun l => by simp [isSome_passed, main]
  obtain ⟨exit, inner, hinner, hresult⟩ := returns_pick
  have hcall := hstart.call (l := "k") rfl
    (by simp [Instruction.Ready, Instruction.reads, Contents.value, isSome_passed])
    (by decide) hinner hresult
  exact ⟨_, hcall, by simp [Contents.value]⟩

/-- The map is read under the number that the key always is. -/
theorem constant_of_reaches_get : (methods.map MethodDecl.name).Nodup ∧
    (ConstantResults.ofMethods methods).lookup pick.name = some (.int 7) ∧
    context.keyField (.var "k") = .key "7" ∧
    (∃ env : Contents Nat, main.Reaches methods 1 env ∧
      env.value (.var "k") = some (.constant (.int 7))) ∧
    (∀ result : Option (Content Nat), pick.Returns methods result →
      result = some (.constant (.int 7))) ∧
    ∀ env : Contents Nat, main.Reaches methods 1 env → ∀ v, env.value (.var "k") = some v →
      v = .constant (.str "7") ∨
        ∃ value : Int, v = .constant (.int value) ∧ toString value = "7" := by
  have hnodup : (methods.map MethodDecl.name).Nodup := by decide
  have hpick : (ConstantResults.ofMethods methods).lookup pick.name = some (.int 7) := by decide
  have hkey : context.keyField (.var "k") = .key "7" := by decide
  obtain ⟨hreturns, -, hfields⟩ := @MethodDecl.constant_of_reaches Nat methods hnodup
  exact ⟨hnodup, hpick, hkey, reaches_get, hreturns pick (by decide) _ hpick,
    fun env hreaches => hfields context rfl 1 env hreaches (.var "k") "7" hkey⟩

end Keyring

end DemandAlias
