import DemandAlias.Data.Multimap
import DemandAlias.Data.OrderedSet
import DemandAlias.Data.Queue
import Std.Data.HashSet

/-!
# Containers written out

What a container holds can be listed, and the list be evaluated where the container, which
depends on hashes, cannot. For each kind of container, what it answers after a change is
what the changed list answers.
-/

namespace DemandAlias

open Std

variable {α β : Type}

namespace Queue

theorem isEmpty_eq (q : Queue α) : q.isEmpty = q.toList.isEmpty := by
  rw [Bool.eq_iff_iff, isEmpty_iff, List.isEmpty_iff]

/-- Who leaves is the first one listed. -/
theorem exists_pop? {q : Queue α} {a : α} {as : List α} (h : q.toList = a :: as) :
    ∃ q', q.pop? = some (a, q') ∧ q'.toList = as := by
  cases hpop : q.pop? with
  | none =>
    rw [(pop?_eq_none_iff q).1 hpop] at h
    cases h
  | some next =>
    obtain ⟨a', q'⟩ := next
    obtain ⟨rfl, rfl⟩ := List.cons.inj ((toList_of_pop?_eq_some hpop).symm.trans h)
    exact ⟨q', rfl, rfl⟩

end Queue

/-! ### Sets -/

/-- The list with `a`, as its last member unless it is one already. -/
def addNew [DecidableEq α] (as : List α) (a : α) : List α := if a ∈ as then as else as ++ [a]

theorem OrderedSet.toList_insert_eq [DecidableEq α] [Hashable α] (s : OrderedSet α) (a : α) :
    (s.insert a).toList = addNew s.toList a := by
  rw [toList_insert, addNew]
  exact ite_congr (propext (contains_iff s a)) (fun _ => rfl) fun _ => rfl

theorem contains_insert_iff [BEq α] [LawfulBEq α] [Hashable α] {m : HashSet α} {as : List α}
    (h : ∀ a, m.contains a = true ↔ a ∈ as) (a b : α) :
    (m.insert a).contains b = true ↔ b ∈ a :: as := by
  rw [HashSet.contains_insert, Bool.or_eq_true, beq_iff_eq, h, List.mem_cons, eq_comm]

/-! ### Lists without repetitions -/

section EraseDups

variable [DecidableEq α]

/-- A new value goes to the end, and a known one changes nothing. -/
theorem eraseDups_concat (as : List α) (a : α) :
    (as ++ [a]).eraseDups = addNew as.eraseDups a := by
  rw [List.eraseDups_append, addNew]
  by_cases h : a ∈ as
  · rw [if_pos (List.mem_eraseDups.2 h)]
    simp [List.removeAll, h]
  · rw [if_neg (mt List.mem_eraseDups.1 h)]
    simp [List.removeAll, h, List.eraseDups_cons]

/-- Known values change nothing. -/
theorem eraseDups_append_of_subset {as bs : List α} (h : ∀ b ∈ bs, b ∈ as) :
    (as ++ bs).eraseDups = as.eraseDups := by
  have hknown : bs.removeAll as = [] := by
    rw [List.removeAll, List.filter_eq_nil_iff]
    intro b hb
    simpa using h b hb
  rw [List.eraseDups_append, hknown, List.eraseDups_nil, List.append_nil]

end EraseDups

/-- Values found one for a member at most, and under its key, have the keys in the order of the
    list. -/
theorem map_filterMap_sublist {γ : Type} {f : α → Option β} {key : α → γ} {key' : β → γ}
    (h : ∀ {a b}, f a = some b → key' b = key a) (as : List α) :
    ((as.filterMap f).map key').Sublist (as.map key) := by
  induction as with
  | nil => exact .slnil
  | cons a _ ih =>
    cases hb : f a with
    | none =>
      rw [List.filterMap_cons_none hb]
      exact ih.cons _
    | some =>
      rw [List.filterMap_cons_some hb, List.map_cons, List.map_cons, h hb]
      exact ih.cons_cons _

/-! ### Maps -/

variable [DecidableEq α]

/-- The values listed for `a`. -/
def valuesOf (as : List (α × β)) (a : α) : List β := (as.filter fun e => e.1 = a).map (·.2)

/-- The first value listed for `a`. -/
def valueOf? (as : List (α × β)) (a : α) : Option β := (as.find? fun e => e.1 = a).map (·.2)

theorem Multimap.get_file_eq [Hashable α] {m : Multimap α β} {as : List (α × β)}
    (h : ∀ a, m.get a = valuesOf as a) (a c : α) (b : β) :
    (m.file a b).get c = valuesOf (as ++ [(a, b)]) c := by
  rw [get_file, h]
  by_cases hac : a = c <;> simp [valuesOf, hac]

theorem getElem?_insert_eq [Hashable α] {m : HashMap α β} {as : List (α × β)}
    (h : ∀ a, m[a]? = valueOf? as a) (a c : α) (b : β) :
    (m.insert a b)[c]? = valueOf? ((a, b) :: as) c := by
  rw [HashMap.getElem?_insert, h]
  by_cases hac : a = c <;> simp [valueOf?, hac]

end DemandAlias
