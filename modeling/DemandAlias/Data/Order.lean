/-!
# Orders by shape

Every answer of the analysis that is a set is listed in increasing order, so the
types it is about are ordered: alternatives in the order of their declaration,
and within an alternative by the contents, the first part deciding first. Such an
order is the one a value inherits from its *shape*, a sum of products of values
that are ordered already (`compareOn`). This module orders sums and products, and
says that a shape that determines its value hands its laws down.

* `sumOrd`, `prodOrd`: the orders of sums and products;
* `lawfulEqCmp_compareOn`: the order by an injective shape tells values apart;
* `sorted`, `sortedBy`, `sortedUnique`: the values of a list in increasing order,
  by a key, and without repetition.
-/

namespace DemandAlias

open Std

-- The library facts that the modules cite most.
export List (any_eq_true append_assoc cons_append cons_ne_nil foldl_append foldl_cons foldl_nil
  foldl_rel forall_mem_cons forall_mem_singleton length_append length_cons map_append map_cons
  mem_append mem_append_left mem_append_right mem_cons mem_cons_of_mem mem_cons_self mem_eraseDups
  mem_filter mem_filterMap mem_flatMap mem_map mem_mergeSort mem_reverse mem_singleton
  mem_singleton_self nodup_cons nodup_nil not_mem_nil pairwise_cons)
export Option (bind_eq_some_iff getD_some isNone_iff_eq_none isSome_iff_exists map_eq_some_iff
  map_some mem_toList some.inj)
export Bool (and_eq_true eq_false_iff)

universe u v

variable {α : Type u} {β : Type v}

/-! ### Sums and products -/

/-- The left values come before the right ones. -/
instance sumOrd [Ord α] [Ord β] : Ord (α ⊕ β) where
  compare
    | .inl a, .inl b => compare a b
    | .inl _, .inr _ => .lt
    | .inr _, .inl _ => .gt
    | .inr a, .inr b => compare a b

/-- The first components decide, then the second ones. -/
instance prodOrd [Ord α] [Ord β] : Ord (α × β) where
  compare a b := (compare a.1 b.1).then (compare a.2 b.2)

/-- There is nothing to compare in a value that carries nothing. -/
instance unitOrd : Ord Unit where
  compare _ _ := .eq

instance transOrdSum [Ord α] [Ord β] [TransOrd α] [TransOrd β] : TransOrd (α ⊕ β) where
  eq_swap {a b} := by
    rcases a with a | a <;> rcases b with b | b
    · exact OrientedOrd.eq_swap (a := a) (b := b)
    · rfl
    · rfl
    · exact OrientedOrd.eq_swap (a := a) (b := b)
  isLE_trans {a b c} hab hbc := by
    rcases a with a | a <;> rcases b with b | b <;> rcases c with c | c
    · exact TransOrd.isLE_trans (a := a) (b := b) hab hbc
    · rfl
    · cases hbc
    · rfl
    · cases hab
    · cases hab
    · cases hbc
    · exact TransOrd.isLE_trans (a := a) (b := b) hab hbc

instance lawfulEqOrdSum [Ord α] [Ord β] [LawfulEqOrd α] [LawfulEqOrd β] :
    LawfulEqOrd (α ⊕ β) where
  compare_self {a} := by
    rcases a with a | a
    · exact ReflOrd.compare_self (a := a)
    · exact ReflOrd.compare_self (a := a)
  eq_of_compare {a b} h := by
    rcases a with a | a <;> rcases b with b | b
    · exact congrArg Sum.inl (LawfulEqOrd.eq_of_compare (a := a) h)
    · cases h
    · cases h
    · exact congrArg Sum.inr (LawfulEqOrd.eq_of_compare (a := a) h)

instance transOrdProd [Ord α] [Ord β] [TransOrd α] [TransOrd β] : TransOrd (α × β) :=
  inferInstanceAs (TransCmp (compareLex (compareOn Prod.fst) (compareOn Prod.snd)))

instance lawfulEqOrdProd [Ord α] [Ord β] [LawfulEqOrd α] [LawfulEqOrd β] :
    LawfulEqOrd (α × β) where
  compare_self {a} := by
    show (compare a.1 a.1).then (compare a.2 a.2) = .eq
    rw [ReflOrd.compare_self, ReflOrd.compare_self]
    rfl
  eq_of_compare {a b} h := by
    obtain ⟨h₁, h₂⟩ := Ordering.then_eq_eq.1 h
    exact Prod.ext (LawfulEqOrd.eq_of_compare h₁) (LawfulEqOrd.eq_of_compare h₂)

instance transOrdUnit : TransOrd Unit where
  eq_swap := rfl
  isLE_trans _ _ := rfl

instance lawfulEqOrdUnit : LawfulEqOrd Unit where
  compare_self := rfl
  eq_of_compare _ := rfl

/-! ### Orders by a shape -/

/-- If the shape determines the value, values the order cannot tell apart are equal. -/
theorem lawfulEqCmp_compareOn [Ord β] [LawfulEqOrd β] {shape : α → β}
    (inj : ∀ a b, shape a = shape b → a = b) : LawfulEqCmp (compareOn shape) where
  compare_self {a} := ReflOrd.compare_self (a := shape a)
  eq_of_compare {a b} h := inj a b (LawfulEqOrd.eq_of_compare h)

/-! ### Sorted lists -/

/-- The values of a list in increasing order. -/
def sorted [Ord α] (xs : List α) : List α := xs.mergeSort fun a b => (compare a b).isLE

/-- The values of a list in increasing order of their keys. -/
def sortedBy [Ord β] (key : α → β) (xs : List α) : List α :=
  xs.mergeSort fun a b => (compare (key a) (key b)).isLE

/-- Drops every value equal to the one before it. -/
def dropRepeats [DecidableEq α] : List α → List α
  | [] => []
  | [a] => [a]
  | a :: b :: xs => if a = b then dropRepeats (b :: xs) else a :: dropRepeats (b :: xs)

/-- The values of a list in increasing order, each once. -/
def sortedUnique [Ord α] [DecidableEq α] (xs : List α) : List α := dropRepeats (sorted xs)

@[simp] theorem mem_dropRepeats [DecidableEq α] {a : α} {xs : List α} :
    a ∈ dropRepeats xs ↔ a ∈ xs := by
  fun_induction dropRepeats xs with
  | case1 | case2 => rfl
  | case3 _ _ ih => simp [ih]
  | case4 _ _ _ _ ih => simp [ih]

@[simp] theorem mem_sortedUnique [Ord α] [DecidableEq α] {a : α} {xs : List α} :
    a ∈ sortedUnique xs ↔ a ∈ xs := by
  rw [sortedUnique, mem_dropRepeats, sorted, List.mem_mergeSort]

end DemandAlias
