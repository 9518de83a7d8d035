import DemandAlias.Proofs.Program.Reversal
import DemandAlias.Proofs.Search.Execution
import DemandAlias.Proofs.Search.Relation

/-!
# Executions that the search covers

If an execution only writes to objects that no field holds, then the search backward from
a local comes to where the value it holds was created (`Traced.finds`). Two facts are kept
by every step of such an execution (`Traced`): the search forward from where a value was
created comes to every path to the value, and the search backward along a path to a value
comes to where it was created. They need each other where a field is written: the store is
found from the creation of the object written to, and the other locals that hold the
object are found by looking for that creation.
-/

namespace DemandAlias

open Statement (allocates defined?)

variable {s : Statement} {m' : Memory} {o : Value}

/-! ### What a step does to paths -/

namespace Memory

variable {m : Memory} {v : Value} {slots : List Slot}

/-- How there comes to be a path, with a step of the statement `s` from the memory `m`. -/
inductive Arises (s : Statement) (m : Memory) (x : Local) : List Slot → Value → Prop
  | kept {slots : List Slot} {v : Value} (hdefined : s.defined? ≠ some x)
      (h : m.Path x slots v) : Arises s m x slots v
  | created {v : Value} (hallocates : s.allocates x = true) (horigin : v.origin = ⟨s, x⟩) :
    Arises s m x [] v
  | copied {y : Local} {slots : List Slot} {v : Value} (haction : s.action = .assign x (.copy y))
      (h : m.Path y slots v) : Arises s m x slots v
  | loaded {base : Local} {field : Field} {slot : Slot} {slots : List Slot} {v : Value}
      (haction : s.action = .assign x (.load base field)) (hslot : field.covers slot = true)
      (h : m.Path base (slot :: slots) v) : Arises s m x slots v
  | stored {base value : Local} {field : Field} {slot : Slot} {slots : List Slot} {o v : Value}
      (haction : s.action = .store base field value) (hslot : field.covers slot = true)
      (hbase : m.locals base = some o) (hx : m.locals x = some o) (h : m.Path value slots v) :
    Arises s m x (slot :: slots) v

theorem Reads.of_heap (hheap : m'.heap = m.heap) (h : m'.Reads o slots v) : m.Reads o slots v := by
  induction h with
  | nil => exact .nil
  | cons hslot _ ih => exact .cons (hheap ▸ hslot) ih

theorem path_assign {x y : Local} {w : Option Value} (h : (m.assign x w).Path y slots v) :
    (y = x ∧ ∃ o, w = some o ∧ m.Reads o slots v) ∨ (y ≠ x ∧ m.Path y slots v) := by
  obtain ⟨o, ho, hreads⟩ := h
  replace hreads : m.Reads o slots v := hreads.of_heap (by rfl)
  by_cases heq : y = x
  · exact .inl ⟨heq, o, by simpa [assign, heq] using ho, hreads⟩
  · exact .inr ⟨heq, o, by simpa [assign, heq] using ho, hreads⟩

/-- Nothing is read from a value that is not in use. -/
theorem Fresh.eq_of_reads (h : m.Fresh o) (hreads : m.Reads o slots v) : slots = [] ∧ v = o := by
  cases hreads with
  | nil => exact ⟨rfl, rfl⟩
  | cons hslot =>
    rw [h.heap] at hslot
    cases hslot

/-- What is read after a write was there before, or is read through the slot written. -/
theorem Reads.of_write {base : Local} (hbase : m.locals base = some o) {slot : Slot}
    {w : Option Value} {o' : Value} (h : (m.write base slot w).Reads o' slots v) :
    m.Reads o' slots v ∨ ∃ before after w', slots = before ++ slot :: after ∧ w = some w' ∧
      (m.write base slot w).Reads o' before o ∧ (m.write base slot w).Reads w' after v := by
  induction h with
  | nil => exact .inl .nil
  | @cons o₁ o₂ v s slots hslot hrest ih =>
    by_cases heq : o₁ = o ∧ s = slot
    · obtain ⟨rfl, rfl⟩ := heq
      exact .inr ⟨[], slots, o₂, rfl, by simpa [write, hbase] using hslot, .nil, hrest⟩
    · rcases ih with h | ⟨before, after, w', rfl, hw, hbefore, hafter⟩
      · exact .inl (.cons (by simpa [write, hbase, heq] using hslot) h)
      · exact .inr ⟨s :: before, after, w', rfl, hw, .cons hslot hbefore, hafter⟩

/-- With a step that only writes to objects that no field holds, a path arises from one that
    was there before. -/
theorem Step.arises (hstep : m.Step s m')
    (hwrites : ∀ base field value o, s.action = .store base field value →
      m.locals base = some o → ∀ x slots, m'.Path x slots o → slots = [])
    {x : Local} (hpath : m'.Path x slots v) : m.Arises s x slots v := by
  have hassigned : ∀ {y e}, s.action = .assign y e → x ≠ y → s.defined? ≠ some x :=
    fun haction hne heq => by
      rw [defined?, haction] at heq
      exact hne (some.inj heq).symm
  cases hstep with
  | @create y e o haction hcreates horigin hfresh =>
    rcases path_assign hpath with ⟨rfl, o', ho', hreads⟩ | ⟨hne, hpath⟩
    · cases ho'
      obtain ⟨rfl, rfl⟩ := hfresh.eq_of_reads hreads
      exact .created (by simp [allocates, haction, hcreates]) horigin
    · exact .kept (hassigned haction hne) hpath
  | @copy y z haction =>
    rcases path_assign hpath with ⟨rfl, hsource⟩ | ⟨hne, hpath⟩
    · exact .copied haction hsource
    · exact .kept (hassigned haction hne) hpath
  | @load _ _ _ _ haction hslot =>
    rcases path_assign hpath with ⟨rfl, o', ho', hreads⟩ | ⟨hne, hpath⟩
    · obtain ⟨o, ho, hheap⟩ := bind_eq_some_iff.1 ho'
      exact .loaded haction hslot ⟨o, ho, .cons hheap hreads⟩
    · exact .kept (hassigned haction hne) hpath
  | @store base value field slot haction hslot =>
    have hdefined : s.defined? ≠ some x := by simp [defined?, haction]
    cases hbase : m.locals base with
    | none =>
      rw [write, hbase] at hpath
      exact .kept hdefined hpath
    | some o =>
      have hlocals : (m.write base slot (m.locals value)).locals = m.locals := by
        rw [write, hbase]
      have honly := hwrites base field value o haction hbase
      obtain ⟨o', ho', hreads⟩ := hpath
      rcases hreads.of_write hbase with hreads | ⟨before, after, w, rfl, hw, hbefore, hafter⟩
      · exact .kept hdefined ⟨o', hlocals ▸ ho', hreads⟩
      · -- The object written to is held by the local itself, and the path goes on in what
        -- was written without coming back to it.
        obtain rfl := honly x before ⟨o', ho', hbefore⟩
        cases hbefore
        rcases hafter.of_write hbase with hafter | ⟨before, after, w', rfl, -, hagain, -⟩
        · exact .stored haction hslot hbase (hlocals ▸ ho') ⟨w, hw, hafter⟩
        · have hread : (m.write base slot (m.locals value)).heap o slot = some w := by
            simp [write, hbase, hw]
          have hcycle := honly base (slot :: before) ⟨o, hlocals.symm ▸ hbase, .cons hread hagain⟩
          cases hcycle
  | branch haction | jump haction | nop haction =>
    exact .kept (by simp [defined?, haction]) hpath

theorem Step.isReturn_eq_false (h : m.Step s m') : s.isReturn = false := by
  cases h with
  | create haction _ _ _ | copy haction | load haction _ | store haction _ | branch haction
  | jump haction | nop haction => simp [Statement.isReturn, haction]

end Memory

/-! ### Moves over a statement -/

namespace Flow

variable {p : Program} {seed : Node} {t : Statement} {x : Local}

/-- Over a statement that does not assign it, a local holds what it held before. -/
theorem Backward.step_mem_movesOver (hdefined : s.defined? ≠ some x) :
    .step ⟨s, x⟩ ∈ Backward.movesOver x s := by
  unfold Backward.movesOver
  split
  · next y e haction =>
    rw [defined?, haction] at hdefined
    rw [if_neg fun heq => hdefined (congrArg some heq)]
    exact mem_singleton_self _
  · split
    · exact mem_cons_of_mem _ (mem_singleton_self _)
    · exact mem_singleton_self _
  · exact mem_singleton_self _

/-- The search ends at the statement that creates a value in the local. -/
theorem Backward.step_mem_movesOver_of_allocates (h : s.allocates x = true) :
    .step ⟨s, x⟩ ∈ Backward.movesOver x s := by
  unfold allocates at h
  split at h
  · next y e haction =>
    simp only [and_eq_true, beq_iff_eq] at h
    obtain ⟨hcreates, rfl⟩ := h
    cases e with
    | alloc _ | const _ => simp [Backward.movesOver, haction]
    | copy _ | load _ _ | call _ => cases hcreates
  · cases h

theorem Backward.mem_moves {m : Move} (hs : s ∈ p.predecessors t) (ht : t.allocates x = false)
    (hm : m ∈ Backward.movesOver x s) : m ∈ (Backward.flow p ⟨t, x⟩).moves := by
  simp only [Backward.flow, ht]
  exact mem_flatMap.2 ⟨s, hs, hm⟩

end Flow

theorem Statement.allocates_eq_false {x : Local} (h : s.defined? ≠ some x) :
    s.allocates x = false := by
  unfold allocates
  split
  · next y e haction =>
    rw [defined?, haction] at h
    have hne : y ≠ x := fun heq => h (congrArg some heq)
    simp [hne]
  · rfl

/-! ### Paths and searches -/

namespace Search

variable {x : Local} {v : Value}

/-- The fields may mean the slots, one by one. -/
abbrev Covers (fields : List Field) (slots : List Slot) : Prop :=
  List.Forall₂ (fun field slot => field.covers slot = true) fields slots

/-- What the searches know of the memory `m` just before `s`. -/
structure Traced (p : Program) (s : Statement) (m : Memory) : Prop where
  created : ∀ {x slots v}, m.Path x slots v → v.origin.stmt.allocates v.origin.var = true
  forward : ∀ {x slots v}, m.Path x slots v →
    ∃ fields, Covers fields slots ∧ Finds p .forward v.origin ⟨⟨s, x⟩, fields⟩
  backward : ∀ {x slots v fields}, m.Path x slots v → s.allocates x = false →
    Covers fields slots → ∀ {seed a rest}, Steps p .backward seed a ⟨⟨s, x⟩, fields ++ rest⟩ →
      Steps p .backward seed a ⟨v.origin, rest⟩

variable {p : Program} {t : Statement} {m m' : Memory}

variable (h : Traced p s m)
include h

/-- What a local holds is found by the search backward from it. -/
theorem Traced.finds (hx : m.locals x = some v) (hs : s.allocates x = false) :
    Finds p .backward ⟨s, x⟩ ⟨v.origin, []⟩ :=
  h.backward ⟨v, hx, .nil⟩ hs .nil .refl

/-- The search forward from the creation of what a local holds comes to the local. -/
theorem Traced.finds_forward (hx : m.locals x = some v) :
    Finds p .forward v.origin ⟨⟨s, x⟩, []⟩ := by
  obtain ⟨fields, hcovers, hfinds⟩ := h.forward ⟨v, hx, .nil⟩
  cases hcovers
  exact hfinds

/-- The search forward from a creation follows a step. -/
theorem Traced.forward_of_arises (ht : t ∈ p.successors s) (hreturn : s.isReturn = false)
    {slots : List Slot} (harises : m.Arises s x slots v) :
    ∃ fields, Covers fields slots ∧ Finds p .forward v.origin ⟨⟨t, x⟩, fields⟩ := by
  cases harises with
  | kept hdefined hpath =>
    obtain ⟨fields, hcovers, hfinds⟩ := h.forward hpath
    exact ⟨fields, hcovers,
      hfinds.move (Flow.Forward.step_mem_moves ht (.inl hdefined) hreturn) .step⟩
  | created _ horigin =>
    refine ⟨[], .nil, ?_⟩
    rw [horigin]
    exact Steps.refl.move (Flow.Forward.step_mem_moves ht (.inr rfl) hreturn) .step
  | @copied y _ _ haction hpath =>
    obtain ⟨fields, hcovers, hfinds⟩ := h.forward hpath
    refine ⟨fields, hcovers, hfinds.move (m := .step ⟨t, x⟩) ?_ .step⟩
    simp only [Program.flow, Flow.Forward.flow, haction, if_true]
    exact mem_append_left _ (mem_map.2 ⟨t, ht, rfl⟩)
  | @loaded _ field slot _ _ haction hslot hpath =>
    obtain ⟨fields, hcovers, hfinds⟩ := h.forward hpath
    cases hcovers with
    | @cons _ _ fields _ hwritten hcovers =>
      refine ⟨fields, hcovers, hfinds.move (m := .pop ⟨t, x⟩ (.field field)) ?_
        (.pop ((Field.sees_iff ..).2 ⟨slot, hslot, hwritten⟩))⟩
      simp only [Program.flow, Flow.Forward.flow, haction, if_true]
      exact mem_append_left _ (mem_map.2 ⟨t, ht, rfl⟩)
  | @stored base _ field _ _ o _ haction hslot hbase hx hpath =>
    obtain ⟨fields, hcovers, hfinds⟩ := h.forward hpath
    refine ⟨field :: fields, .cons hslot hcovers, ?_⟩
    by_cases heq : x = base
    · subst heq
      refine hfinds.move (m := .push ⟨t, x⟩ (.field field)) ?_ .push
      simp only [Program.flow, Flow.Forward.flow, haction, if_true]
      exact mem_append_left _ (mem_map.2 ⟨t, ht, rfl⟩)
    · -- Another local that holds the object written to: the search for the object comes to
      -- where it was created, and the search from there to the local.
      refine hfinds.shared haction (h.created ⟨o, hbase, .nil⟩) (h.finds hbase ?_)
        (h.finds_forward hx) heq ht
      simp [allocates, haction]

/-- The search backward along a path follows a step. -/
theorem Traced.backward_of_arises (hs : s ∈ p.predecessors t) {slots : List Slot}
    (harises : m.Arises s x slots v) (ht : t.allocates x = false) {fields : List Field}
    (hcovers : Covers fields slots) {seed : Node} {a : Access} {rest : List Field}
    (hsteps : Steps p .backward seed a ⟨⟨t, x⟩, fields ++ rest⟩) :
    Steps p .backward seed a ⟨v.origin, rest⟩ := by
  cases harises with
  | kept hdefined hpath =>
    have hm := Flow.Backward.mem_moves hs ht (Flow.Backward.step_mem_movesOver hdefined)
    exact h.backward hpath (Statement.allocates_eq_false hdefined) hcovers (hsteps.move hm .step)
  | created hallocates horigin =>
    cases hcovers
    rw [horigin]
    refine hsteps.move (m := .step ⟨s, x⟩) (Flow.Backward.mem_moves hs ht ?_) .step
    exact Flow.Backward.step_mem_movesOver_of_allocates hallocates
  | @copied y _ _ haction hpath =>
    have hmove := hsteps.move (m := .step ⟨s, y⟩) (Flow.Backward.mem_moves hs ht ?_) .step
    · exact h.backward hpath (by simp [allocates, haction, Expr.creates]) hcovers hmove
    · simp [Flow.Backward.movesOver, haction]
  | @loaded base field _ _ _ haction hslot hpath =>
    have hmove := hsteps.move (m := .push ⟨s, base⟩ (.field field))
      (Flow.Backward.mem_moves hs ht ?_) .push
    · exact h.backward hpath (by simp [allocates, haction, Expr.creates])
        (.cons hslot hcovers) hmove
    · simp [Flow.Backward.movesOver, haction]
  | @stored base value _ slot _ o _ haction hslot hbase hx hpath =>
    cases hcovers with
    | @cons _ _ _ _ hread hcovers =>
      have hkept : ∀ y, s.allocates y = false := fun y => by simp [allocates, haction]
      have hm := Flow.Backward.mem_moves hs ht
        (Flow.Backward.step_mem_movesOver (x := x) (by simp [defined?, haction]))
      -- To where the object was created, and from there to the store.
      have howner := h.backward ⟨o, hx, .nil⟩ (hkept x) .nil (hsteps.move hm .step)
      have hfinds : Finds p .forward o.origin ⟨⟨s, base⟩, []⟩ := h.finds_forward hbase
      have hstore := howner.stored (h.created ⟨o, hbase, .nil⟩) hfinds haction
        ((Field.sees_iff ..).2 ⟨slot, hread, hslot⟩)
      exact h.backward hpath (hkept value) hcovers hstore

/-- What the searches know is kept by a step that only writes to objects that no field holds. -/
theorem Traced.step (hstep : m.Step s m') (ht : t ∈ p.successors s) (hs : s ∈ p.predecessors t)
    (hwrites : ∀ base field value o, s.action = .store base field value → m.locals base = some o →
      ∀ x slots, m'.Path x slots o → slots = []) :
    Traced p t m' where
  created hpath := by
    cases hstep.arises hwrites hpath with
    | created hallocates horigin => rw [horigin]; exact hallocates
    | kept _ hpath | copied _ hpath | loaded _ _ hpath | stored _ _ _ _ hpath =>
      exact h.created hpath
  forward hpath := h.forward_of_arises ht hstep.isReturn_eq_false (hstep.arises hwrites hpath)
  backward hpath hallocates hcovers := fun hsteps =>
    h.backward_of_arises hs (hstep.arises hwrites hpath) hallocates hcovers hsteps

end Search

/-- The searches cover every execution that only writes to objects that no field holds. -/
theorem Execution.traced {p : Program} (hp : p.IsLaidOut) {m : Memory} (e : Execution p s m)
    (hwrites : e.WritesLocally) : p.Places s ∧ Search.Traced p s m := by
  induction e with
  | start hmethod hs =>
    have hnone : ∀ {x slots v}, ¬Memory.empty.Path x slots v := fun ⟨_, ho, _⟩ => by cases ho
    exact ⟨hp.places_of_start? hmethod hs, fun hpath => (hnone hpath).elim,
      fun hpath => (hnone hpath).elim, fun hpath => (hnone hpath).elim⟩
  | step e hstep ht ih =>
    obtain ⟨hs, htraced⟩ := ih hwrites.1
    obtain ⟨ht', hpred⟩ := hp.places_of_mem_successors hs ht
    exact ⟨ht', htraced.step hstep ht hpred hwrites.2⟩

end DemandAlias
