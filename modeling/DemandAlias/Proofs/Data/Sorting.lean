import DemandAlias.Data.Order
import Mathlib.Data.List.Nodup
import Std.Data.HashMap

/-!
# One list for each set

What is reported as a set is listed in increasing order. A set has only one such list
(`eq_of_mem_iff`), so whatever a list was sorted from, and in which order its members were
found, does not show.
-/

namespace DemandAlias

open Std

variable {α β : Type} [Ord α] {xs ys : List α}

/-- A list in increasing order. -/
abbrev InOrder (xs : List α) : Prop := xs.Pairwise fun a b => (compare a b).isLE

/-- A list in increasing order without repetition. -/
abbrev Ascending (xs : List α) : Prop := xs.Pairwise fun a b => compare a b = .lt

theorem InOrder.ascending [LawfulEqOrd α] {xs : List α} (h : InOrder xs) (hnodup : xs.Nodup) :
    Ascending xs := by
  refine h.imp₂ (fun a b hle hne => ?_) hnodup
  cases hcmp : compare a b with
  | lt => rfl
  | eq => exact absurd (LawfulEqOrd.eq_of_compare hcmp) hne
  | gt => simp [hcmp] at hle

theorem Ascending.nodup [ReflOrd α] {xs : List α} (h : Ascending xs) : xs.Nodup :=
  h.imp fun hlt heq => by simp [heq, ReflOrd.compare_self] at hlt

theorem nodup_sorted {xs : List α} (h : xs.Nodup) : (sorted xs).Nodup :=
  (List.mergeSort_perm ..).nodup_iff.2 h

/-- The keys of a map are listed once. -/
theorem nodup_map_sortedBy [DecidableEq α] [Hashable α] (m : HashMap α β) :
    ((sortedBy (·.1) m.toList).map (·.1)).Nodup := by
  have hkeys : (m.toList.map (·.1)).Nodup :=
    List.pairwise_map.2 (m.distinct_keys_toList.imp fun hne heq => by simp [heq] at hne)
  exact ((List.mergeSort_perm m.toList _).map fun x => x.1).nodup_iff.2 hkeys

variable [TransOrd α]

theorem isLE_total (a b : α) : ((compare a b).isLE || (compare b a).isLE) = true := by
  have hswap : compare b a = (compare a b).swap := OrientedCmp.eq_swap
  rw [hswap]
  cases compare a b <;> rfl

theorem inOrder_sorted (xs : List α) : InOrder (sorted xs) :=
  List.pairwise_mergeSort (fun _ _ _ => TransCmp.isLE_trans) isLE_total xs

theorem inOrder_map_sortedBy (key : β → α) (xs : List β) : InOrder ((sortedBy key xs).map key) :=
  List.pairwise_map.2 (List.pairwise_mergeSort (fun _ _ _ => TransCmp.isLE_trans)
    (fun a b => isLE_total (key a) (key b)) xs)

/-- Lists in increasing order without repetition are the same if they have the same members. -/
theorem eq_of_mem_iff [LawfulEqOrd α] (hx : InOrder xs) (hy : InOrder ys) (hxs : xs.Nodup)
    (hys : ys.Nodup) (h : ∀ a, a ∈ xs ↔ a ∈ ys) : xs = ys :=
  ((List.perm_ext_iff_of_nodup hxs hys).2 h).eq_of_pairwise
    (fun _ _ _ _ hle hge => LawfulEqOrd.eq_of_compare (OrientedCmp.isLE_antisymm hle hge)) hx hy

/-- Lists in increasing order without repetition are the same if each has the members of the
    other. -/
theorem eq_of_subset [LawfulEqOrd α] (hx : InOrder xs ∧ xs.Nodup) (hy : InOrder ys ∧ ys.Nodup)
    (h : xs ⊆ ys) (h' : ys ⊆ xs) : xs = ys :=
  eq_of_mem_iff hx.1 hy.1 hx.2 hy.2 fun _ => ⟨fun ha => h ha, fun ha => h' ha⟩

/-- Lists of different keys, sorted by them, are the same in whatever order they were. -/
theorem sortedBy_eq_of_perm [LawfulEqOrd α] {key : β → α} {xs ys : List β} (h : xs.Perm ys)
    (hnodup : (xs.map key).Nodup) : sortedBy key xs = sortedBy key ys := by
  have hxs : (sortedBy key xs).Perm xs := List.mergeSort_perm xs _
  have hys : (sortedBy key ys).Perm ys := List.mergeSort_perm ys _
  refine (hxs.trans (h.trans hys.symm)).eq_of_pairwise (fun a b ha hb hle hge => ?_)
    (List.pairwise_map.1 (inOrder_map_sortedBy key xs))
    (List.pairwise_map.1 (inOrder_map_sortedBy key ys))
  refine List.inj_on_of_nodup_map hnodup (hxs.mem_iff.1 ha) (h.mem_iff.2 (hys.mem_iff.1 hb)) ?_
  exact LawfulEqOrd.eq_of_compare (OrientedCmp.isLE_antisymm hle hge)

theorem sorted_eq_of_mem_iff [LawfulEqOrd α] (hxs : xs.Nodup) (hys : ys.Nodup)
    (h : ∀ a, a ∈ xs ↔ a ∈ ys) : sorted xs = sorted ys := by
  refine eq_of_mem_iff (inOrder_sorted xs) (inOrder_sorted ys) (nodup_sorted hxs)
    (nodup_sorted hys) fun a => ?_
  simp only [sorted, mem_mergeSort]
  exact h a

/-! ### Lists sorted without repetition -/

variable [DecidableEq α]

omit [Ord α] [TransOrd α] in
theorem dropRepeats_sublist (xs : List α) : (dropRepeats xs).Sublist xs := by
  fun_induction dropRepeats xs with
  | case1 | case2 => exact .refl _
  | case3 a _ ih => exact ih.cons a
  | case4 a _ _ _ ih => exact ih.cons_cons a

/-- In a list in increasing order, equal values stand next to each other. -/
theorem nodup_dropRepeats [LawfulEqOrd α] {xs : List α} (h : InOrder xs) :
    (dropRepeats xs).Nodup := by
  fun_induction dropRepeats xs with
  | case1 => exact .nil
  | case2 => exact List.pairwise_singleton ..
  | case3 _ _ ih => exact ih h.of_cons
  | case4 _ _ _ hne ih =>
    refine nodup_cons.2 ⟨fun hmem => hne ?_, ih h.of_cons⟩
    -- A value that comes again has `b` between its first place and the other one.
    rcases mem_cons.1 (mem_dropRepeats.1 hmem) with heq | hxs
    · exact heq
    · exact LawfulEqOrd.eq_of_compare (OrientedCmp.isLE_antisymm
        (List.rel_of_pairwise_cons h mem_cons_self)
        (List.rel_of_pairwise_cons h.of_cons hxs))

/-- The values of a list, sorted without repetition, are in order and each there once. -/
theorem inOrder_sortedUnique [LawfulEqOrd α] (xs : List α) :
    InOrder (sortedUnique xs) ∧ (sortedUnique xs).Nodup :=
  ⟨(inOrder_sorted xs).sublist (dropRepeats_sublist _), nodup_dropRepeats (inOrder_sorted xs)⟩

theorem sortedUnique_eq_of_mem_iff [LawfulEqOrd α] (h : ∀ a, a ∈ xs ↔ a ∈ ys) :
    sortedUnique xs = sortedUnique ys := by
  obtain ⟨hxs, hxs'⟩ := inOrder_sortedUnique xs
  obtain ⟨hys, hys'⟩ := inOrder_sortedUnique ys
  refine eq_of_mem_iff hxs hys hxs' hys' fun a => ?_
  rw [mem_sortedUnique, mem_sortedUnique, h a]

end DemandAlias
