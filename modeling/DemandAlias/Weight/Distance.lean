import DemandAlias.Weight.Basic

/-!
# Distances

The lengths of shortest ways: of two ways the shorter one counts, and lengths along
a way add up. No way has no length.
-/

namespace DemandAlias

/-- The length of a shortest way, if there is a way. -/
structure Distance where
  length : Option Int
  deriving DecidableEq, Inhabited

namespace Distance

instance : Weight Distance where
  one := ⟨some 0⟩
  zero := ⟨none⟩
  combine
    | ⟨none⟩, b => b
    | a, ⟨none⟩ => a
    | ⟨some a⟩, ⟨some b⟩ => ⟨some (min a b)⟩
  extend
    | ⟨some a⟩, ⟨some b⟩ => ⟨some (a + b)⟩
    | _, _ => ⟨none⟩

instance : LawfulWeight Distance where
  combine_assoc := by
    rintro ⟨_ | a⟩ ⟨_ | b⟩ ⟨_ | c⟩ <;> simp [combine, Int.min_assoc]
  combine_comm := by
    rintro ⟨_ | a⟩ ⟨_ | b⟩ <;> simp [combine, Int.min_comm]
  combine_self := by
    rintro ⟨_ | a⟩ <;> simp [combine]
  zero_combine := by
    rintro ⟨_ | a⟩ <;> rfl
  extend_assoc := by
    rintro ⟨_ | a⟩ ⟨_ | b⟩ ⟨_ | c⟩ <;> simp [extend, Int.add_assoc]
  one_extend := by
    rintro ⟨_ | a⟩ <;> simp [extend, one]
  extend_one := by
    rintro ⟨_ | a⟩ <;> simp [extend, one]
  zero_extend := by
    rintro ⟨_ | a⟩ <;> rfl
  extend_zero := by
    rintro ⟨_ | a⟩ <;> rfl
  extend_combine := by
    rintro ⟨_ | a⟩ ⟨_ | b⟩ ⟨_ | c⟩ <;> simp [extend, combine]
  combine_extend := by
    rintro ⟨_ | a⟩ ⟨_ | b⟩ ⟨_ | c⟩ <;> simp [extend, combine]

end Distance

end DemandAlias
