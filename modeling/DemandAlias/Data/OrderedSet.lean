import Std.Data.HashMap

/-!
# Sets in order of insertion

A set that remembers in which order its members came, and numbers them from zero
in that order. The states of an automaton are such a set, as are the nodes a
solver has processed. The numbering (`indexOf?`) and the list of members are
inverse to each other, which is part of the type.

* `mem_insert`: inserting a value adds just that value;
* `toList_insert`: a new value goes to the end, a known one changes nothing;
* `indexOf?_eq_some_iff`: a member's number is its place in the list.
-/

namespace DemandAlias

open Std

universe u

/-- A set of values in the order of their insertion. -/
structure OrderedSet (α : Type u) [DecidableEq α] [Hashable α] where
  /-- The place of every member. -/
  places : HashMap α Nat := ∅
  /-- The members, the first one inserted first. -/
  members : Array α := #[]
  /-- The places are those of the members. -/
  places_iff : ∀ (a : α) (i : Nat), places[a]? = some i ↔ members[i]? = some a := by simp

namespace OrderedSet

variable {α : Type u} [DecidableEq α] [Hashable α]

/-- The set without members. -/
def empty : OrderedSet α := {}

instance : Inhabited (OrderedSet α) := ⟨empty⟩

/-- The members in the order of their insertion. -/
def toList (s : OrderedSet α) : List α := s.members.toList

/-- How many members there are. -/
def size (s : OrderedSet α) : Nat := s.members.size

/-- The number of a member, counted from zero in the order of insertion. -/
def indexOf? (s : OrderedSet α) (a : α) : Option Nat := s.places[a]?

/-- The member of a number. -/
def get? (s : OrderedSet α) (i : Nat) : Option α := s.members[i]?

/-- Whether `a` is a member. -/
def contains (s : OrderedSet α) (a : α) : Bool := s.places.contains a

instance : Membership α (OrderedSet α) where
  mem s a := a ∈ s.toList

/-- The set with `a`, as its last member unless it is one already. -/
def insert (s : OrderedSet α) (a : α) : OrderedSet α :=
  if h : a ∈ s.places then s
  else {
    places := s.places.insert a s.members.size
    members := s.members.push a
    places_iff := by
      intro b i
      have hb := s.places_iff b i
      rw [HashMap.getElem?_insert, Array.getElem?_push]
      by_cases hab : a = b
      · subst hab
        have none : ∀ j, s.members[j]? ≠ some a := fun j hj => by
          rw [← s.places_iff, HashMap.getElem?_eq_none h] at hj
          cases hj
        by_cases hi : i = s.members.size
        · simp [hi]
        · simp [hi, none i, Ne.symm hi]
      · have ne : (a == b) = false := by simpa using hab
        by_cases hi : i = s.members.size
        · have none : s.members[i]? = none := by simp [hi]
          rw [if_pos hi, ne, if_neg Bool.false_ne_true, hb, none]
          simp [hab]
        · simp [hi, ne, hb] }

variable (s : OrderedSet α)

theorem indexOf?_eq_some_iff (a : α) (i : Nat) : s.indexOf? a = some i ↔ s.get? i = some a :=
  s.places_iff a i

theorem mem_iff_exists_indexOf? (a : α) : a ∈ s ↔ ∃ i, s.indexOf? a = some i := by
  show a ∈ s.members.toList ↔ _
  simp only [indexOf?_eq_some_iff, get?]
  rw [Array.mem_toList_iff, Array.mem_iff_getElem?]

theorem mem_places_iff (a : α) : a ∈ s.places ↔ a ∈ s := by
  rw [mem_iff_exists_indexOf?, HashMap.mem_iff_isSome_getElem?, Option.isSome_iff_exists]
  rfl

@[simp] theorem contains_iff (a : α) : s.contains a = true ↔ a ∈ s := by
  rw [← mem_places_iff]
  exact HashMap.contains_iff_mem

/-- A new value goes to the end of the list, and a known one changes nothing. -/
theorem toList_insert (a : α) :
    (s.insert a).toList = if s.contains a then s.toList else s.toList ++ [a] := by
  by_cases h : a ∈ s.places
  · have hc : s.contains a = true := (contains_iff s a).2 ((mem_places_iff s a).1 h)
    simp [insert, h, hc]
  · have hc : s.contains a = false := by
      rw [Bool.eq_false_iff, Ne, contains_iff, ← mem_places_iff]
      exact h
    simp [insert, h, hc, toList]

/-- Inserting a value adds just that value. -/
@[simp] theorem mem_insert (a b : α) : b ∈ s.insert a ↔ b = a ∨ b ∈ s := by
  show b ∈ (s.insert a).toList ↔ _
  rw [toList_insert]
  split
  · next h =>
    rw [contains_iff] at h
    exact ⟨.inr, fun hb => hb.elim (fun e => e ▸ h) id⟩
  · next h =>
    rw [List.mem_append, List.mem_singleton]
    exact Or.comm

/-- No member is listed twice. -/
theorem nodup_toList : s.toList.Nodup := by
  rw [List.nodup_iff_pairwise_ne, List.pairwise_iff_getElem]
  intro i j hi hj hij he
  have h₁ := (s.places_iff _ i).2 (Array.getElem?_eq_getElem hi)
  have h₂ := (s.places_iff _ j).2 (Array.getElem?_eq_getElem hj)
  have h₃ : s.places[s.members[i]]? = some j := (congrArg (s.places[·]?) he).trans h₂
  exact absurd (Option.some.inj (h₁.symm.trans h₃)) (Nat.ne_of_lt hij)

end OrderedSet

end DemandAlias
