/-!
# First-in first-out queues

Everything that waits for its turn in the analysis waits in a queue: the events of
an automaton and the nodes a solver has yet to process. What a queue holds is the
list `toList` of its values, the one to leave first at the head.

* `toList_push`: a new value goes to the end;
* `pop?_eq_none_iff`, `toList_of_pop?_eq_some`: the head leaves first.
-/

namespace DemandAlias

universe u

/-- A queue, as the values about to leave and, latest first, the values that arrived after them. -/
structure Queue (α : Type u) where
  /-- The values about to leave, the next one first. -/
  front : List α := []
  /-- The values behind them, the latest one first. -/
  back : List α := []

namespace Queue

variable {α : Type u}

/-- The queue nobody waits in. -/
def empty : Queue α := {}

instance : Inhabited (Queue α) := ⟨empty⟩

/-- The values waiting, the next one to leave first. -/
def toList (q : Queue α) : List α := q.front ++ q.back.reverse

/-- Whether nobody waits. -/
def isEmpty (q : Queue α) : Bool := q.front.isEmpty && q.back.isEmpty

/-- How many values wait. -/
def size (q : Queue α) : Nat := q.front.length + q.back.length

/-- Lets `a` wait behind everybody else. -/
def push (q : Queue α) (a : α) : Queue α := { q with back := a :: q.back }

/-- Lets the values of `as` wait, in their order, behind everybody else. -/
def pushAll (q : Queue α) (as : List α) : Queue α := as.foldl push q

/-- The next value to leave, and the queue without it. -/
def pop? (q : Queue α) : Option (α × Queue α) :=
  match q.front with
  | a :: front => some (a, { q with front })
  | [] =>
    match q.back.reverse with
    | a :: front => some (a, { front })
    | [] => none

@[simp] theorem toList_empty : (empty : Queue α).toList = [] := rfl

@[simp] theorem toList_push (q : Queue α) (a : α) : (q.push a).toList = q.toList ++ [a] := by
  simp [toList, push]

@[simp] theorem toList_pushAll (q : Queue α) (as : List α) :
    (q.pushAll as).toList = q.toList ++ as := by
  induction as generalizing q with
  | nil => simp [pushAll]
  | cons a _ ih =>
    have h := ih (q.push a)
    rw [toList_push, List.append_assoc] at h
    exact h

@[simp] theorem isEmpty_iff (q : Queue α) : q.isEmpty = true ↔ q.toList = [] := by
  simp [isEmpty, toList]

@[simp] theorem size_eq (q : Queue α) : q.size = q.toList.length := by
  simp [size, toList]

/-- Nobody leaves exactly if nobody waits. -/
theorem pop?_eq_none_iff (q : Queue α) : q.pop? = none ↔ q.toList = [] := by
  obtain ⟨front, back⟩ := q
  cases front with
  | cons => simp [pop?, toList]
  | nil => cases h : back.reverse with
    | nil | cons => simp [pop?, toList, h]

/-- Who leaves was at the head, and the others keep their places. -/
theorem toList_of_pop?_eq_some {q q' : Queue α} {a : α} (h : q.pop? = some (a, q')) :
    q.toList = a :: q'.toList := by
  obtain ⟨front, back⟩ := q
  cases front with
  | cons b front =>
    obtain ⟨rfl, rfl⟩ : b = a ∧ ({ front, back } : Queue α) = q' := by simpa [pop?] using h
    rfl
  | nil => cases hb : back.reverse with
    | nil => simp [pop?, hb] at h
    | cons b front =>
      obtain ⟨rfl, rfl⟩ : b = a ∧ ({ front } : Queue α) = q' := by simpa [pop?, hb] using h
      simp [toList, hb]

end Queue

end DemandAlias
