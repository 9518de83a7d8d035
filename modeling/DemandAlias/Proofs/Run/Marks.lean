import DemandAlias.Proofs.Run.Persistence
import DemandAlias.Proofs.Saturation

/-!
# What a solver takes down

A solver takes down where its automata are entered, by the local or the node of each node
that an automaton reaches, and which methods it has come to, when it processes a node of
them. Unlike its transitions and rules, these are not looked at again while it works, only
in what is reported of it.

That they are what they are meant to be (`Marked`) is kept by all that a solver does, as it
is kept by every change and by processing a node (`Endures`). So in the end they can be
read off the transitions (`mem_initial_calls_iff`, `mem_initial_fields_iff`) and the nodes
reached (`mem_visited_iff`).
-/

namespace DemandAlias

open Std

variable {ω : Type} [Weight ω] [DecidableEq ω]

namespace Solver

/-- The property `P` is kept by all changes, by all that is noted in between, and by
    processing nodes. -/
structure Endures (c : Setting ω) (P : Solver ω → Prop) : Prop where
  make : ∀ {s} x, P s → P (s.make x)
  note : ∀ {s}, P s → ∀ watches last edgesSeen outbox, P { s with watches, last, edgesSeen, outbox }
  calls : ∀ {s d calls}, P s → s.calls.poll? = some (d, calls) → P { s with calls }
  fields : ∀ {s d fields}, P s → s.fields.poll? = some (d, fields) → P { s with fields }
  report : ∀ {s n pending}, P s → s.pending.pop? = some (n, pending) →
    IsReported c n = true → P { s with pending }
  visit : ∀ {s n pending}, P s → s.pending.pop? = some (n, pending) →
    IsReported c n = false → P { s with pending, visited := s.visited.insert n.stmt.method }

namespace Endures

variable {c : Setting ω} {P : Solver ω → Prop} {s s' : Solver ω}

variable (hP : Endures c P) (g : CallGraph)
include hP

theorem explores {xs : List (Change ω)} {W : Crossing → Node → Prop} (h : P s)
    (he : Explores c g xs W s s') : P s' := by
  induction he with
  | refl => exact h
  | make _ _ ih => exact hP.make _ ih
  | note _ _ ih => exact hP.note ih _ _ _ _

theorem refresh (h : P s) : P (s.refresh c g) := by
  rcases explores_refresh c g s with ⟨-, heq⟩ | ⟨-, he⟩
  · rwa [heq]
  · exact hP.explores g (hP.note h _ _ _ _) he

theorem serveQueue (queue : WorkQueue) (h : P s) : P (s.serveQueue c g queue) := by
  have hmakeAll {s : Solver ω} (h : P s) (xs : List (Change ω)) : P (s.makeAll xs) :=
    holds_makeAll_of (A := fun _ => True) (fun h _ => hP.make _ h) (fun _ _ => trivial) h
  have hlast : P { s with last := queue } := hP.note h _ _ _ _
  rcases serveQueue_cases c g s queue with
    heq | ⟨d, calls, hpoll, heq⟩ | ⟨d, fields, hpoll, heq⟩ | ⟨n, pending, hpop, heq⟩
  · rwa [heq]
  · rw [heq]
    exact hmakeAll (hP.calls hlast hpoll) _
  · rw [heq]
    exact hmakeAll (hP.fields hlast hpoll) _
  · rw [heq]
    rcases explores_process c g { s with pending, last := queue } n with
      ⟨hreported, heq⟩ | ⟨hreported, visited, rfl, hcases⟩
    · rw [heq]
      exact hP.make _ (hP.report hlast hpop hreported)
    · have hvisit := hP.visit hlast hpop hreported
      rcases hcases with heq | ⟨-, he⟩
      · rwa [heq]
      · exact hP.explores g hvisit he

end Endures

/-! ### Marks -/

/-- The states at which the automata are entered are those of the nodes they reach, and the
    methods visited are those of the nodes processed. -/
structure Marked (c : Setting ω) (s : Solver ω) : Prop where
  calls : ∀ q, q ∈ s.calls.initial ↔ ∃ n ∈ s.callReached, q = .single n.var
  fields : ∀ q, q ∈ s.fields.initial ↔ ∃ n ∈ s.fieldReached, q = .located n
  pending : ∀ n ∈ s.pending.toList, n ∈ s.reached
  visits : ∀ m ∈ s.visited, ∃ n ∈ s.reached, n.stmt.method = m
  visited : ∀ n ∈ s.reached, n ∈ s.pending.toList ∨ IsReported c n = true ∨
    n.stmt.method ∈ s.visited

section Marked

variable {c : Setting ω} {s : Solver ω}

omit [DecidableEq ω] in
/-- Entering one more node at its state. -/
theorem mem_initial_insert {σ Λ ω' κ : Type} [DecidableEq σ] [Hashable σ] [DecidableEq Λ]
    [Hashable Λ] {a : Automaton σ Λ ω' κ} {reached : HashSet Node} {entry : Node → σ}
    (h : ∀ q, q ∈ a.initial ↔ ∃ n ∈ reached, q = entry n) (n : Node) (q : σ) :
    q ∈ (a.addInitial (entry n)).initial ↔ ∃ m ∈ reached.insert n, q = entry m := by
  have hinsert : q ∈ (a.addInitial (entry n)).initial ↔ q = entry n ∨ q ∈ a.initial :=
    OrderedSet.mem_insert ..
  simp only [hinsert, h, HashSet.mem_insert, beq_iff_eq]
  constructor
  · rintro (rfl | ⟨m, hm, rfl⟩)
    · exact ⟨n, .inl rfl, rfl⟩
    · exact ⟨m, .inr hm, rfl⟩
  · rintro ⟨m, rfl | hm, rfl⟩
    · exact .inl rfl
    · exact .inr ⟨m, hm, rfl⟩

omit [Weight ω] [DecidableEq ω] in
/-- A node that becomes reached waits to be processed. -/
theorem Marked.reach (h : s.Marked c) (n : Node) : (s.reach n).Marked c := by
  obtain ⟨reached, pending, heq, hreached, hnew, hpending, hold⟩ := reach_eq s n
  rw [heq]
  refine ⟨h.calls, h.fields, fun m hm => ?_, fun m hm => ?_, fun m hm => ?_⟩
  · exact (hold m hm).elim (fun hm => (hreached m).2 (.inl (h.pending m hm))) fun hm => hm
  · obtain ⟨n', hn', rfl⟩ := h.visits m hm
    exact ⟨n', (hreached n').2 (.inl hn'), rfl⟩
  · exact (hnew m hm).elim (fun hm => (h.visited m hm).imp_left (hpending m)) .inl

theorem Marked.make (h : s.Marked c) (x : Change ω) : (s.make x).Marked c := by
  -- Only reaching a node enters a state, and it notes the node at the same time.
  cases x with
  | call => exact { h with calls := by simpa [Solver.make, addCall] using h.calls }
  | field => exact { h with fields := by simpa [Solver.make, addField] using h.fields }
  | callRule => exact { h with calls := by simpa [Solver.make, onCalls] using h.calls }
  | fieldRule =>
    exact { h with fields := by simpa [Solver.make, onFields] using h.fields }
  | reachByCalls n =>
    simp only [Solver.make, reachByCalls]
    split
    · exact h
    · have hentered : Marked c { s with
          callReached := s.callReached.insert n
          calls := s.calls.addInitial (.single n.var) } :=
        { h with calls := mem_initial_insert h.calls n }
      exact hentered.reach n
  | reachByFields n =>
    simp only [Solver.make, reachByFields]
    split
    · exact h
    · have hentered : Marked c { s with
          fieldReached := s.fieldReached.insert n
          fields := s.fields.addInitial (.located n) } :=
        { h with fields := mem_initial_insert h.fields n }
      exact hentered.reach n
  | message => exact { h with }
  | fieldRequest =>
    simp only [Solver.make, requestFields]
    split
    · exact h
    · exact { h with fields := by simpa [onFields] using h.fields }
  | callRequest | unwind =>
    simp only [Solver.make, requestCalls, Solver.unwind]
    split
    · exact h
    · exact { h with calls := by simpa [onCalls] using h.calls }

theorem endures_marked (c : Setting ω) : Endures c (Marked c) where
  make x h := h.make x
  note h _ _ _ _ := { h with }
  calls h hpoll := by
    obtain ⟨events, rfl, -, -⟩ := poll?_eq_some hpoll
    exact { h with }
  fields h hpoll := by
    obtain ⟨events, rfl, -, -⟩ := poll?_eq_some hpoll
    exact { h with }
  report {s n pending} h hpop hreported := by
    have hqueue := Queue.toList_of_pop?_eq_some hpop
    refine { h with pending := fun m hm => ?_, visited := fun m hm => ?_ }
    · exact h.pending m (hqueue ▸ mem_cons_of_mem _ hm)
    · rcases h.visited m hm with hm | hm
      · rw [hqueue, mem_cons] at hm
        exact hm.elim (fun heq => .inr (.inl (heq ▸ hreported))) .inl
      · exact .inr hm
  visit {s n pending} h hpop _ := by
    have hqueue := Queue.toList_of_pop?_eq_some hpop
    refine { h with pending := fun m hm => ?_, visits := fun m hm => ?_, visited := fun m hm => ?_ }
    · exact h.pending m (hqueue ▸ mem_cons_of_mem _ hm)
    · rcases (OrderedSet.mem_insert ..).1 hm with rfl | hm
      · exact ⟨n, h.pending n (hqueue ▸ mem_cons_self), rfl⟩
      · exact h.visits m hm
    · rcases h.visited m hm with hm | hm | hm
      · rw [hqueue, mem_cons] at hm
        exact hm.elim (fun heq => .inr (.inr ((OrderedSet.mem_insert ..).2 (.inl (heq ▸ rfl))))) .inl
      · exact .inr (.inl hm)
      · exact .inr (.inr ((OrderedSet.mem_insert ..).2 (.inr hm)))

theorem marked_start (c : Setting ω) (id : SolverId) (direction : Direction) (seed : Node) :
    (start id direction seed : Solver ω).Marked c := by
  refine ⟨fun q => ?_, fun q => ?_, fun _ hn => (nomatch hn), fun _ hm => (nomatch hm),
    fun _ hn => nomatch hn⟩ <;>
  · simp only [start, Automaton.initial_add, Automaton.initial_listen]
    refine iff_of_false not_mem_nil ?_
    rintro ⟨_, hn, -⟩
    exact HashSet.not_mem_empty hn

end Marked

end Solver

/-! ### Runs -/

namespace Run

variable {c : Setting ω}

section Endures

variable {P : Solver ω → Prop}

variable [ZeroFree ω] (hc : c.weighing.ZeroFree) (hP : Solver.Endures c P)
  (hstart : ∀ id direction seed, P (.start id direction seed))

include hc hP hstart

/-- What a solver keeps to whatever it does holds of all solvers of a run. -/
theorem maintained_of_endures : Maintained c fun r => r.Everywhere P :=
  maintained_everywhere_of hc (fun h _ => hP.make _ h) hstart (fun g h => hP.refresh g h)
    fun g queue _ h => hP.note (hP.serveQueue g queue h) _ _ _ _

theorem Reachable.everywhere {r : Run ω} (h : Reachable c r) : r.Everywhere P := by
  obtain ⟨-, hr⟩ := h.maintains (P := fun _ r => r.Everywhere P) hc
    (fun _ => maintained_of_endures hc hP hstart) fun graph q => by
    have hempty : Everywhere P ({ graph } : Run ω) := fun _ _ hs => by simp [solver?] at hs
    exact hempty.updates (fun h _ => hP.make _ h) hstart (passage_updates.start ⟨c, graph⟩ q)
  exact hr

end Endures

namespace Finished

variable {g : CallGraph} {sent : Message → Prop} {s : Solver ω}

variable (h : Finished c g sent s) (hmarked : s.Marked c)
include h hmarked

omit [DecidableEq ω] in
/-- The automaton of calls is entered at the locals of its transitions. -/
theorem mem_initial_calls_iff (q : State) :
    q ∈ s.calls.initial ↔ ∃ n p, q = .single n.var ∧ callAt n p ∈ s.calls.transitions := by
  rw [hmarked.calls]
  constructor
  · rintro ⟨n, hn, rfl⟩
    obtain ⟨p, hp⟩ := h.sound.callReached hn
    exact ⟨n, p, rfl, hp⟩
  · rintro ⟨n, p, rfl, hp⟩
    obtain ⟨w, -, hmade⟩ := h.call h.sound.callReach hp (Transition.all_mem_topics _)
    exact ⟨n, hmade _ mem_cons_self, rfl⟩

omit [DecidableEq ω] in
/-- The automaton of fields is entered at the nodes of its transitions. -/
theorem mem_initial_fields_iff (q : State) :
    q ∈ s.fields.initial ↔ ∃ n l p, q = .located n ∧ fieldAt n l p ∈ s.fields.transitions := by
  rw [hmarked.fields]
  constructor
  · rintro ⟨n, hn, rfl⟩
    obtain ⟨l, p, hp⟩ := h.sound.fieldReached hn
    exact ⟨n, l, p, rfl, hp⟩
  · rintro ⟨n, l, p, rfl, hp⟩
    have hmade := h.field h.sound.fieldReach hp (Transition.all_mem_topics _)
    exact ⟨n, hmade _ mem_cons_self, rfl⟩

omit [DecidableEq ω] in
/-- The methods visited are those of the nodes reached. -/
theorem mem_visited_iff (m : MethodName) : m ∈ s.visited ↔ ∃ n ∈ s.reached, n.stmt.method = m := by
  refine ⟨hmarked.visits m, ?_⟩
  rintro ⟨n, hn, rfl⟩
  rcases hmarked.visited n hn with hpending | hreported | hvisited
  · rw [h.idle] at hpending
    cases hpending
  · rw [h.reported hn] at hreported
    cases hreported
  · exact hvisited

end Finished

end Run

end DemandAlias
