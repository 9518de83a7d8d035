import DemandAlias.Proofs.Conditions
import DemandAlias.Proofs.Trail
import Mathlib.Logic.Basic

/-!
# Laws of trails

Trails may be combined in any order and any number of times, and two of them in a row are
extended by a third as the first by the other two in a row. Each of the parts of a trail obeys
these laws on its own: of lists of nodes the one that counts first is kept, outcomes are known on
all of some ways or are not, and a branch that goes both ways is past telling which came first.

* `Conditions.agreed_assoc`, `Conditions.along_assoc`: the laws of outcomes, node by node;
* `Trail.noLater_shorter_iff`: the shorter of two lists is the greatest one that counts no later
  than both, whence the laws of lists of nodes;
* `Trail.lawful_combine_extend`: the laws of trails. Whether combining and extending go through
  each other is another matter.
-/

namespace DemandAlias

/-! ### Outcomes -/

instance Outcome.associative_along : Std.Associative Outcome.along where
  assoc a b c := by cases a <;> cases b <;> cases c <;> rfl

namespace Conditions

theorem along_assoc (c d e : Conditions) : (c.along d).along e = c.along (d.along e) :=
  ext_get? fun n => by
    rw [get?_along, get?_along, get?_along, get?_along]
    exact Std.Associative.assoc _ _ _

theorem none_along (c : Conditions) : none.along c = c :=
  ext_get? fun n => (get?_along none c n).trans Option.merge_none_left

/-- Outcomes are the same if the same ones are known. -/
theorem ext_eq_some {c d : Conditions} (h : ∀ n o, c.get? n = some o ↔ d.get? n = some o) :
    c = d :=
  ext_get? fun n => Option.ext (h n)

theorem agreed_assoc (c d e : Conditions) : (c.agreed d).agreed e = c.agreed (d.agreed e) :=
  ext_eq_some fun n o => by simp only [get?_agreed_eq_some_iff, and_assoc]

theorem agreed_comm (c d : Conditions) : c.agreed d = d.agreed c :=
  ext_eq_some fun n o => by simp only [get?_agreed_eq_some_iff, and_comm]

theorem agreed_self (c : Conditions) : c.agreed c = c :=
  ext_eq_some fun n o => by simp only [get?_agreed_eq_some_iff, and_self]

end Conditions

namespace Trail

/-! ### Lists of nodes -/

/-- What counts no later than the shorter of two lists counts no later than both. -/
theorem noLater_shorter_iff {a b c : List Node} :
    NoLater c (shorter a b) ↔ NoLater c a ∧ NoLater c b := by
  constructor
  · exact fun h => ⟨h.trans (shorter_noLater_left a b), h.trans (shorter_noLater_right a b)⟩
  · rintro ⟨ha, hb⟩
    rcases shorter_cases a b with heq | ⟨-, heq⟩ <;> rwa [heq]

theorem eq_of_noLater_iff {a b : List Node} (h : ∀ c, NoLater c a ↔ NoLater c b) : a = b :=
  ((h a).1 (.inl rfl)).antisymm ((h b).2 (.inl rfl))

theorem shorter_assoc (a b c : List Node) : shorter (shorter a b) c = shorter a (shorter b c) :=
  eq_of_noLater_iff fun d => by simp only [noLater_shorter_iff, and_assoc]

theorem shorter_comm (a b : List Node) : shorter a b = shorter b a :=
  eq_of_noLater_iff fun d => by simp only [noLater_shorter_iff, and_comm]

theorem shorter_self (a : List Node) : shorter a a = a := shorter_eq_left (.inl rfl)

theorem nil_shorter (a : List Node) : shorter [] a = [] :=
  shorter_eq_left (noLater_of_sublist (List.nil_sublist a))

/-! ### Trails -/

instance : LawfulCombine Trail where
  combine_assoc a b c := by
    cases a with
    | zero => cases b <;> rfl
    | path ns c₁ =>
      cases b with
      | zero => rfl
      | path ms c₂ =>
        cases c with
        | zero => rfl
        | path ls c₃ =>
          exact congrArg₂ path (shorter_assoc ns ms ls) (Conditions.agreed_assoc c₁ c₂ c₃)
  combine_comm a b := by
    cases a with
    | zero => cases b <;> rfl
    | path ns c =>
      cases b with
      | zero => rfl
      | path ms d => exact congrArg₂ path (shorter_comm ns ms) (Conditions.agreed_comm c d)
  combine_self a := by
    cases a with
    | zero => rfl
    | path ns c => exact congrArg₂ path (shorter_self ns) (Conditions.agreed_self c)

theorem extend_assoc (a b c : Trail) :
    extend (extend a b) c = extend a (extend b c) := by
  cases a with
  | zero => cases b <;> cases c <;> rfl
  | path ns c₁ =>
    cases b with
    | zero => cases c <;> rfl
    | path ms c₂ =>
      cases c with
      | zero => rfl
      | path ls c₃ =>
        exact congrArg₂ path (append_assoc ns ms ls) (Conditions.along_assoc c₁ c₂ c₃)

theorem one_extend (a : Trail) : extend Weight.one a = a := by
  cases a with
  | zero => rfl
  | path ns c => exact congrArg (path ns) (Conditions.none_along c)

theorem extend_one (a : Trail) : extend a Weight.one = a := by
  cases a with
  | zero => rfl
  | path ns c => exact congrArg (path · c) (List.append_nil ns)

theorem extend_zero (a : Trail) : extend a Weight.zero = Weight.zero := by
  cases a <;> rfl

/-- The way that does nothing is shorter than any other, and nothing is known of it. -/
theorem one_combine (a : Trail) : combine Weight.one a = Weight.one := by
  cases a with
  | zero => rfl
  | path ns => exact congrArg (path · .none) (nil_shorter ns)

theorem combine_eq_zero_iff {a b : Trail} :
    combine a b = Weight.zero ↔ a = Weight.zero ∧ b = Weight.zero := by
  cases a with
  | zero => exact ⟨fun h => ⟨rfl, (ZeroCombine.zero_combine b).symm.trans h⟩, fun h => h.2 ▸ rfl⟩
  | path =>
    exact iff_of_false (ZeroFree.combine_ne_zero nofun) fun h => Trail.noConfusion h.1

theorem extend_eq_zero_iff {a b : Trail} :
    extend a b = Weight.zero ↔ a = Weight.zero ∨ b = Weight.zero := by
  constructor
  · intro h
    by_cases ha : a = Weight.zero
    · exact .inl ha
    · exact .inr (Decidable.not_not.1 fun hb => ZeroFree.extend_ne_zero ha hb h)
  · rintro (rfl | rfl)
    · rfl
    · exact extend_zero a

/-- Trails can be combined in any order and any number of times, where no way at all adds nothing
    and the way that does nothing makes up for all others. Of three in a row it does not matter
    which two are extended first, the way that does nothing changes nothing, and with no way at all
    there is none. Otherwise ways that there are never come to be none. -/
theorem lawful_combine_extend :
    (∀ a b c : Trail, combine (combine a b) c =
      combine a (combine b c)) ∧
    (∀ a b : Trail, combine a b = combine b a) ∧
    (∀ a : Trail, combine a a = a ∧ combine Weight.zero a = a ∧
      combine a Weight.zero = a ∧ combine Weight.one a = Weight.one) ∧
    (∀ a b c : Trail, extend (extend a b) c = extend a (extend b c)) ∧
    (∀ a : Trail, extend Weight.one a = a ∧ extend a Weight.one = a ∧
      extend Weight.zero a = Weight.zero ∧ extend a Weight.zero = Weight.zero) ∧
    ∀ a b : Trail, (combine a b = Weight.zero ↔ a = Weight.zero ∧ b = Weight.zero) ∧
      (extend a b = Weight.zero ↔ a = Weight.zero ∨ b = Weight.zero) := by
  refine ⟨LawfulCombine.combine_assoc, LawfulCombine.combine_comm, fun a => ⟨?_, ?_, ?_, ?_⟩,
    extend_assoc, fun a => ⟨one_extend a, extend_one a, rfl, extend_zero a⟩,
    fun a b => ⟨combine_eq_zero_iff, extend_eq_zero_iff⟩⟩
  · exact LawfulCombine.combine_self a
  · exact ZeroCombine.zero_combine a
  · exact (LawfulCombine.combine_comm a _).trans (ZeroCombine.zero_combine a)
  · exact one_combine a

end Trail

end DemandAlias
