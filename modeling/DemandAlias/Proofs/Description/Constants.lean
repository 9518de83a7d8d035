import DemandAlias.Description.Constants
import DemandAlias.Proofs.Data.Listing
import Mathlib.Data.List.Nodup

/-!
# Rounds of constant results

The methods that always return a constant are found in rounds, and what a round finds depends
only on which constants are known (`ConstantResults.found_congr`), not on the order of the
methods. What one round keeps, all of them do (`ConstantResults.afterRounds_induction`), and
after as many rounds as there are methods nothing is left to be found
(`ConstantResults.found_ofMethods`).
-/

namespace DemandAlias

namespace ConstantResults

variable {known known' : ConstantResults} {methods : List MethodDecl}
variable {name : String} {c : Constant} {methods' : List MethodDecl}

/-! ### What is known -/

/-- The same constants are known of the same methods. -/
def Agree (known known' : ConstantResults) : Prop := ∀ name, known.lookup name = known'.lookup name

theorem mem_of_lookup (h : known.lookup name = some c) : (name, c) ∈ known := by
  obtain ⟨before, after, rfl, -⟩ := List.lookup_eq_some_iff.1 h
  simp

/-- If no method is listed twice, all that is listed is known. -/
theorem lookup_eq_some_iff (h : (known.map Prod.fst).Nodup) :
    known.lookup name = some c ↔ (name, c) ∈ known := by
  refine ⟨mem_of_lookup, fun hmem => ?_⟩
  have hsome : (known.lookup name).isSome := List.lookup_isSome_iff.2 ⟨_, hmem, BEq.rfl⟩
  obtain ⟨c', hc'⟩ := isSome_iff_exists.1 hsome
  have heq : (name, c') = (name, c) := List.inj_on_of_nodup_map h (mem_of_lookup hc') hmem rfl
  rw [hc', (Prod.mk.inj heq).2]

theorem Agree.of_perm (h : known.Perm known') (hnodup : (known.map Prod.fst).Nodup) :
    known.Agree known' := by
  intro name
  refine Option.ext fun c => ?_
  rw [lookup_eq_some_iff hnodup, lookup_eq_some_iff ((h.map _).nodup_iff.1 hnodup), h.mem_iff]

section

variable (h : known.Agree known')
include h

theorem Agree.append {new new' : ConstantResults} (hnew : new.Agree new') :
    Agree (known ++ new) (known' ++ new') := by
  intro name
  rw [List.lookup_append, List.lookup_append, h name, hnew name]

/-! ### One round -/

theorem Agree.constantOperand? (m : MethodDecl) (o : Operand String) :
    m.constantOperand? known o = m.constantOperand? known' o := by
  cases o with
  | const => rfl
  | var => simp only [MethodDecl.constantOperand?, MethodDecl.constantOf?, h _]

theorem Agree.constantResult? (m : MethodDecl) :
    m.constantResult? known = m.constantResult? known' := by
  have hreturned : m.returned known = m.returned known' := by
    simp only [MethodDecl.returned, funext fun o => h.constantOperand? m o]
  rw [MethodDecl.constantResult?, MethodDecl.constantResult?, hreturned]

/-- What a round finds depends only on what is known. -/
theorem found_congr (methods : List MethodDecl) : found methods known = found methods known' :=
  List.filterMap_congr fun m _ => by rw [h m.name, h.constantResult? m]

end

theorem mem_found_iff :
    (name, c) ∈ found methods known ↔ ∃ m ∈ methods, m.name = name ∧
      known.lookup name = none ∧ m.constantResult? known = some c := by
  rw [found, mem_filterMap]
  constructor
  · rintro ⟨m, hm, heq⟩
    split at heq
    · cases heq
    · next hnew =>
      obtain ⟨c', hc', hpair⟩ := map_eq_some_iff.1 heq
      cases hpair
      exact ⟨m, hm, rfl, Option.not_isSome_iff_eq_none.1 hnew, hc'⟩
  · rintro ⟨m, hm, rfl, hnew, hc⟩
    exact ⟨m, hm, by rw [hnew, hc]; rfl⟩

theorem fst_found_sublist (methods : List MethodDecl) (known : ConstantResults) :
    ((found methods known).map Prod.fst).Sublist (methods.map MethodDecl.name) := by
  refine map_filterMap_sublist (fun {m x} hx => ?_) methods
  split at hx
  · cases hx
  · obtain ⟨c, -, rfl⟩ := map_eq_some_iff.1 hx
    rfl

/-! ### All rounds -/

theorem afterRounds_succ (methods : List MethodDecl) (n : Nat) (known : ConstantResults) :
    afterRounds methods (n + 1) known = afterRounds methods n (known ++ found methods known) := by
  rw [afterRounds]
  split
  · next hnil =>
    rw [hnil, List.append_nil]
    -- Nothing is found by the other rounds either.
    induction n with
    | zero => rfl
    | succ => rw [afterRounds, hnil]
  · rfl

/-- What a round keeps holds of all that is found. -/
theorem afterRounds_induction {P : ConstantResults → Prop}
    (hround : ∀ known, P known → P (known ++ found methods known)) (n : Nat) (h : P known) :
    P (afterRounds methods n known) := by
  induction n generalizing known with
  | zero => exact h
  | succ n ih =>
    rw [afterRounds_succ]
    exact ih (hround known h)

theorem agree_afterRounds (hperm : methods.Perm methods')
    (hnodup : (methods.map MethodDecl.name).Nodup) (n : Nat) (h : known.Agree known') :
    Agree (afterRounds methods n known) (afterRounds methods' n known') := by
  induction n generalizing known known' with
  | zero => exact h
  | succ n ih =>
    -- A round finds the same in whatever order the methods are.
    rw [afterRounds_succ, afterRounds_succ, ← found_congr h methods']
    exact ih (h.append (.of_perm (hperm.filterMap _)
      ((fst_found_sublist methods known).nodup hnodup)))

/-- How many methods are not known to return a constant. -/
def openCount (methods : List MethodDecl) (known : ConstantResults) : Nat :=
  methods.countP fun m => (known.lookup m.name).isNone

/-- A round that finds something leaves fewer methods open. -/
theorem openCount_lt (h : found methods known ≠ []) :
    openCount methods (known ++ found methods known) < openCount methods known := by
  obtain ⟨⟨name, c⟩, hnew⟩ := List.exists_mem_of_ne_nil _ h
  obtain ⟨m, hm, rfl, hopen, -⟩ := mem_found_iff.1 hnew
  have hsome : ((found methods known).lookup m.name).isSome :=
    List.lookup_isSome_iff.2 ⟨_, hnew, BEq.rfl⟩
  generalize found methods known = new at hsome
  -- All methods known before stay so, and `m` is known now.
  have hle : ∀ ms : List MethodDecl, openCount ms (known ++ new) ≤ openCount ms known := by
    refine fun ms => List.countP_mono_left fun m' _ h => ?_
    rw [isNone_iff_eq_none, List.lookup_append, Option.or_eq_none_iff] at h
    exact isNone_iff_eq_none.2 h.1
  have hclosed : ¬((known ++ new).lookup m.name).isNone = true := by
    rwa [isNone_iff_eq_none, List.lookup_append, hopen, Option.none_or,
      ← Ne.eq_def, ← Option.isSome_iff_ne_none]
  obtain ⟨before, after, rfl⟩ := List.append_of_mem hm
  have hbefore := hle before
  have hafter := hle after
  unfold openCount at hbefore hafter ⊢
  rw [List.countP_append, List.countP_append, List.countP_cons_of_neg (a := m) hclosed,
    List.countP_cons_of_pos (a := m) (isNone_iff_eq_none.2 hopen)]
  omega

/-- After as many rounds as methods are open, nothing is left to be found. -/
theorem found_afterRounds {n : Nat} (h : openCount methods known ≤ n) :
    found methods (afterRounds methods n known) = [] := by
  induction n generalizing known with
  | zero =>
    refine List.eq_nil_iff_forall_not_mem.2 fun ⟨name, c⟩ hmem => ?_
    obtain ⟨m, hm, rfl, hopen, -⟩ := mem_found_iff.1 hmem
    exact List.countP_eq_zero.1 (Nat.le_zero.1 h) m hm (isNone_iff_eq_none.2 hopen)
  | succ n ih =>
    by_cases hnil : found methods known = []
    · rw [afterRounds, hnil]
      exact hnil
    · rw [afterRounds_succ]
      exact ih (Nat.le_of_lt_succ (Nat.lt_of_lt_of_le (openCount_lt hnil) h))

/-- There are enough rounds: one more would find nothing. -/
theorem found_ofMethods (methods : List MethodDecl) : found methods (ofMethods methods) = [] :=
  found_afterRounds List.countP_le_length

theorem constantResult?_of_not_found {m : MethodDecl} (hm : m ∈ methods)
    (h : (ofMethods methods).lookup m.name = none) :
    m.constantResult? (ofMethods methods) = none := by
  refine Option.eq_none_iff_forall_ne_some.2 fun c hc => ?_
  have hnew : (m.name, c) ∈ found methods (ofMethods methods) := mem_found_iff.2 ⟨m, hm, rfl, h, hc⟩
  rw [found_ofMethods] at hnew
  cases hnew

/-- The order of the methods does not decide which constants they return. -/
theorem agree_ofMethods (hperm : methods.Perm methods')
    (hnodup : (methods.map MethodDecl.name).Nodup) :
    Agree (ofMethods methods) (ofMethods methods') := by
  rw [ofMethods, ofMethods, ← hperm.length_eq]
  exact agree_afterRounds hperm hnodup _ fun _ => rfl

end ConstantResults

end DemandAlias
