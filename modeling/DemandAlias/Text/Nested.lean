/-!
# Nested parts

What a written pattern is made of, each part with its *depth*: how many parts are
inside of each other in it. A pattern that is nested too deep is refused.
-/

namespace DemandAlias.Text

/-- A part of a pattern and its depth. -/
structure Nested (α : Type) where
  value : α
  depth : Nat := 0
  deriving Inhabited

namespace Nested

variable {α β : Type}

/-- The part inside of one more. -/
def wrap (p : Nested α) (f : α → β) : Nested β := ⟨f p.value, p.depth + 1⟩

/-- One part of two. -/
def both (a b : Nested α) (f : α → α → α) : Nested α := ⟨f a.value b.value, max a.depth b.depth + 1⟩

/-- One part of some, the latest of which comes first. A single one stays as it is. -/
def join (f : α → α → α) (empty : α) : List (Nested α) → Nested α
  | [] => ⟨empty, 0⟩
  | [p] => p
  | p :: before =>
    ⟨before.foldl (fun rest q => f q.value rest) p.value,
      before.foldl (fun depth q => max depth q.depth) p.depth + 1⟩

end Nested

end DemandAlias.Text
