import Std.Data.HashMap

/-!
# Maps to lists of values

A map that keeps, for every key, the values filed under it in the order of their
arrival. Listeners by what they listen to, edges of the call graph by call site
and found allocations by solver are all kept this way.

* `get_file`: filing a value appends it to the values of its key and leaves the
  other keys alone.
-/

namespace DemandAlias

open Std

universe u v

/-- For every key, the values filed under it, in the order of their arrival. -/
structure Multimap (α : Type u) (β : Type v) [DecidableEq α] [Hashable α] where
  /-- The values of the keys that have some. -/
  entries : HashMap α (Array β) := ∅

namespace Multimap

variable {α : Type u} {β : Type v} [DecidableEq α] [Hashable α]

/-- The map without values. -/
def empty : Multimap α β := {}

instance : Inhabited (Multimap α β) := ⟨empty⟩

/-- The values filed under `a`, the first one filed first. -/
def get (m : Multimap α β) (a : α) : List β := (m.entries.getD a #[]).toList

/-- How many values are filed under `a`. -/
def count (m : Multimap α β) (a : α) : Nat := (m.entries.getD a #[]).size

/-- Files `b` under `a`, behind the values filed there already. -/
def file (m : Multimap α β) (a : α) (b : β) : Multimap α β where
  entries := m.entries.alter a fun values => some ((values.getD #[]).push b)

@[simp] theorem get_empty (a : α) : (empty : Multimap α β).get a = [] := by
  simp [get, empty]

/-- Filing a value appends it to the values of its key and leaves the other keys alone. -/
theorem get_file (m : Multimap α β) (a c : α) (b : β) :
    (m.file a b).get c = if a = c then m.get c ++ [b] else m.get c := by
  by_cases h : a = c
  · subst h
    simp [get, file, HashMap.getD_eq_getD_getElem?]
  · simp [get, file, HashMap.getD_alter, h]

end Multimap

export Multimap (get_empty get_file)

end DemandAlias
