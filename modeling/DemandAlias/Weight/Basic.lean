/-!
# Weights

Transitions carry weights. Weights of different ways to the same transition are
*combined*, and weights along one way are *extended* one by the other, the earlier
one first. `zero` stands for no way at all and `one` for the way that does nothing.

* `Weight`: the operations;
* `LawfulWeight`: the laws of an idempotent semiring;
* `Reach`: the weights of an analysis that only asks whether there is a way.
-/

namespace DemandAlias

/-- Weights of ways. -/
class Weight (ω : Type) where
  /-- The way that does nothing. -/
  one : ω
  /-- No way. -/
  zero : ω
  /-- Either of two ways. -/
  combine : ω → ω → ω
  /-- One way after the other. -/
  extend : ω → ω → ω

export Weight (zero one extend combine)

/-- The laws of an idempotent semiring: ways may be combined in any order and any number of times,
    no way adds nothing to a combination and makes nothing of an extension, the way that does
    nothing changes no extension, and extending goes through combinations. -/
class LawfulWeight (ω : Type) [Weight ω] : Prop where
  combine_assoc : ∀ a b c : ω, combine (combine a b) c = combine a (combine b c)
  combine_comm : ∀ a b : ω, combine a b = combine b a
  combine_self : ∀ a : ω, combine a a = a
  zero_combine : ∀ a : ω, combine zero a = a
  extend_assoc : ∀ a b c : ω, extend (extend a b) c = extend a (extend b c)
  one_extend : ∀ a : ω, extend one a = a
  extend_one : ∀ a : ω, extend a one = a
  zero_extend : ∀ a : ω, extend zero a = zero
  extend_zero : ∀ a : ω, extend a zero = zero
  extend_combine : ∀ a b c : ω, extend a (combine b c) = combine (extend a b) (extend a c)
  combine_extend : ∀ a b c : ω, extend (combine a b) c = combine (extend a c) (extend b c)

/-- Whether there is a way. -/
inductive Reach where
  | one
  | zero
  deriving DecidableEq, Inhabited

namespace Reach

instance : Weight Reach where
  one := .one
  zero := .zero
  combine
    | .zero, .zero => .zero
    | _, _ => .one
  extend
    | .one, .one => .one
    | _, _ => .zero

instance : LawfulWeight Reach where
  combine_assoc a b c := by cases a <;> cases b <;> cases c <;> rfl
  combine_comm a b := by cases a <;> cases b <;> rfl
  combine_self a := by cases a <;> rfl
  zero_combine a := by cases a <;> rfl
  extend_assoc a b c := by cases a <;> cases b <;> cases c <;> rfl
  one_extend a := by cases a <;> rfl
  extend_one a := by cases a <;> rfl
  zero_extend a := by cases a <;> rfl
  extend_zero a := by cases a <;> rfl
  extend_combine a b c := by cases a <;> cases b <;> cases c <;> rfl
  combine_extend a b c := by cases a <;> cases b <;> cases c <;> rfl

/-- How it is written whether there is a way. -/
def render : Reach → String
  | .one => "One"
  | .zero => "Zero"

end Reach

end DemandAlias
