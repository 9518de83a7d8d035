import DemandAlias.Pushdown.Node

/-!
# Branch outcomes

The branches a way is known to take: for some nodes at a branch, which way it goes
there. A way that comes to the same branch several times may go both ways. Outcomes
are listed in the order of their nodes, each node once, so that equal knowledge is
written in one way only.

* `Conditions.along`, `Conditions.agreed`: what is known of two ways in a row, and of
  either of two ways;
* `increasing_insertEntry`: one more outcome keeps the order of the nodes.
-/

namespace DemandAlias

/-- Which way a branch goes. -/
inductive Outcome where
  /-- To the target. -/
  | taken
  /-- On to the next statement. -/
  | skipped
  /-- Both ways, one after the other. -/
  | both
  deriving DecidableEq, Inhabited

namespace Outcome

/-- What is known of a branch that goes one way and then the other. -/
def along (a b : Outcome) : Outcome := if a = b then a else .both

/-- How an outcome is written. -/
def render : Outcome → String
  | .taken => "true"
  | .skipped => "false"
  | .both => "top"

end Outcome

/-- The outcomes of some branches, in the order of their nodes, each once. -/
structure Conditions where
  entries : List (Node × Outcome) := []
  increasing : entries.Pairwise fun a b => compare a.1 b.1 = .lt := by simp
  deriving DecidableEq

namespace Conditions

open Std

/-- Nothing is known. -/
def none : Conditions := {}

instance : Inhabited Conditions := ⟨none⟩

/-- The outcome of one branch. -/
def single (n : Node) (o : Outcome) : Conditions := { entries := [(n, o)] }

/-- The outcome of the branch at `n`, if it is known. -/
def get? (c : Conditions) (n : Node) : Option Outcome := c.entries.lookup n

/-- The outcomes with one more, `o` at `n`, that comes after the one known there. -/
def insertEntry (n : Node) (o : Outcome) : List (Node × Outcome) → List (Node × Outcome)
  | [] => [(n, o)]
  | (m, p) :: rest =>
    match compare n m with
    | .lt => (n, o) :: (m, p) :: rest
    | .eq => (m, p.along o) :: rest
    | .gt => (m, p) :: insertEntry n o rest

theorem mem_insertEntry {n : Node} {o : Outcome} {entries : List (Node × Outcome)}
    {e : Node × Outcome} (h : e ∈ insertEntry n o entries) :
    e.1 = n ∨ ∃ e' ∈ entries, e'.1 = e.1 := by
  fun_induction insertEntry n o entries with
  | case1 =>
    cases mem_singleton.1 h
    exact .inl rfl
  | case2 =>
    rcases mem_cons.1 h with rfl | h
    · exact .inl rfl
    · exact .inr ⟨e, h, rfl⟩
  | case3 m p =>
    rcases mem_cons.1 h with rfl | h
    · exact .inr ⟨(m, p), mem_cons_self, rfl⟩
    · exact .inr ⟨e, mem_cons_of_mem _ h, rfl⟩
  | case4 m p _ _ ih =>
    rcases mem_cons.1 h with rfl | h
    · exact .inr ⟨(m, p), mem_cons_self, rfl⟩
    · rcases ih h with h | ⟨e', he', h⟩
      · exact .inl h
      · exact .inr ⟨e', mem_cons_of_mem _ he', h⟩

theorem increasing_insertEntry (n : Node) (o : Outcome) {entries : List (Node × Outcome)}
    (h : entries.Pairwise fun a b => compare a.1 b.1 = .lt) :
    (insertEntry n o entries).Pairwise fun a b => compare a.1 b.1 = .lt := by
  fun_induction insertEntry n o entries with
  | case1 => exact List.pairwise_singleton _ _
  | case2 _ _ _ hlt =>
    refine pairwise_cons.2 ⟨fun e he => ?_, h⟩
    rcases mem_cons.1 he with rfl | he
    · exact hlt
    · exact TransCmp.lt_trans hlt (List.rel_of_pairwise_cons h he)
  | case3 =>
    obtain ⟨h₁, h₂⟩ := pairwise_cons.1 h
    exact pairwise_cons.2 ⟨fun e he => h₁ e he, h₂⟩
  | case4 _ _ _ hgt ih =>
    obtain ⟨h₁, h₂⟩ := pairwise_cons.1 h
    refine pairwise_cons.2 ⟨fun e he => ?_, ih h₂⟩
    rcases mem_insertEntry he with hn | ⟨e', he', hn⟩
    · rw [hn]
      exact OrientedCmp.lt_of_gt hgt
    · rw [← hn]
      exact h₁ e' he'

/-- The outcomes with one more, `o` at `n`, that comes after the one known there. -/
def insertWith (c : Conditions) (n : Node) (o : Outcome) : Conditions where
  entries := insertEntry n o c.entries
  increasing := increasing_insertEntry n o c.increasing

/-- What is known of a way that first goes as `c` says and then as `d` says. -/
def along (c d : Conditions) : Conditions := d.entries.foldl (fun c (n, o) => c.insertWith n o) c

/-- What is known of a way that goes as `c` says or as `d` says: the outcomes they agree on. -/
def agreed (c d : Conditions) : Conditions where
  entries := c.entries.filter fun (n, o) => d.get? n == some o
  increasing := c.increasing.filter _

end Conditions

end DemandAlias
