import DemandAlias.Proofs.Solver.Making

/-!
# What a solver sends

A solver that serves an event sends what the rule that hears of the event makes of it. When it
processes a node, it asks for the edges of the crossings it comes to, tells of a write to a field,
or reports that the node is in a method said to be unreachable (`Sends`, `mem_outbox_serveQueue`).
-/

namespace DemandAlias.Solver

variable {ω : Type} [Weight ω]
variable {s : Solver ω} {m : Message} {c : Setting ω} {g : CallGraph}

/-- The message is one that the solver sends when it next serves one of its queues. -/
inductive Sends (c : Setting ω) (s : Solver ω) : Message → Prop
  | call {rule : CallRule ω} {t : CallTransition} {w : ω}
      {calls : Automaton State Statement ω (CallRule ω)} {m : Message}
      (hpoll : s.calls.poll? = some (⟨rule, t, w⟩, calls))
      (hm : .message m ∈ rule.changes c s.bottom t w) : Sends c s m
  | field {rule : FieldRule} {t : FieldTransition} {w : Reach}
      {fields : Automaton State Field Reach FieldRule} {m : Message}
      (hpoll : s.fields.poll? = some (⟨rule, t, w⟩, fields))
      (hm : (.message m : Change ω) ∈ rule.changes t) : Sends c s m
  | wanted (x : Crossing) : Sends c s (.wanted x)
  | fieldWrite (n : Node) (base : Local) (field : Field) : Sends c s (.fieldWrite n base field)
  | unreachable (n : Node) (hcheck : c.options.checkUnreachable = true) :
    Sends c s (.unreachable n)

variable [DecidableEq ω]

theorem mem_outbox_make {x : Change ω} (hm : m ∈ (s.make x).outbox) :
    m ∈ s.outbox ∨ x = .message m := by
  rcases (frame_make s x).2.2.2 with heq | ⟨m', rfl, heq⟩
  · exact .inl (heq ▸ hm)
  · rcases mem_cons.1 (heq ▸ hm) with rfl | hm
    · exact .inr rfl
    · exact .inl hm

/-- Telling others is all that a change does for them. -/
theorem mem_outbox_makeAll {xs : List (Change ω)} (hm : m ∈ (s.makeAll xs).outbox) :
    m ∈ s.outbox ∨ .message m ∈ xs := by
  induction xs generalizing s with
  | nil => exact .inl hm
  | cons _ _ ih =>
    rcases ih hm with hm | hmem
    · rcases mem_outbox_make hm with hm | rfl
      · exact .inl hm
      · exact .inr mem_cons_self
    · exact .inr (mem_cons_of_mem _ hmem)

theorem mem_outbox_explores {s' : Solver ω} {xs : List (Change ω)} {W : Crossing → Node → Prop}
    (he : Explores c g xs W s s') (hm : m ∈ s'.outbox) :
    m ∈ s.outbox ∨ .message m ∈ xs ∨ ∃ x, m = .wanted x := by
  induction he with
  | refl => exact .inl hm
  | make _ hx ih =>
    rcases mem_outbox_make hm with hm | rfl
    · exact ih hm
    · cases hx with
      | node hx => exact .inr (.inl hx)
      | want => exact .inr (.inr ⟨_, rfl⟩)
      | cross _ _ hy => exact (plain_crossingChanges c _ _ _ _ _ hy).elim
  | note _ _ ih => exact ih hm

/-- What a solver sends when it processes a node. -/
theorem mem_outbox_process {n : Node} (hm : m ∈ (s.process c g n).outbox) :
    m ∈ s.outbox ∨ (∃ x, m = .wanted x) ∨
      (∃ base field, m = .fieldWrite n base field) ∨
      m = .unreachable n ∧ c.options.checkUnreachable = true := by
  rcases explores_process c g s n with ⟨hreported, heq⟩ | ⟨-, visited, -, heq | ⟨-, he⟩⟩
  · rw [heq] at hm
    rcases mem_cons.1 hm with rfl | hm
    · exact .inr (.inr (.inr ⟨rfl, (Bool.and_eq_true_iff.1 hreported).1⟩))
    · exact .inl hm
  · rw [heq] at hm
    exact .inl hm
  · rcases mem_outbox_explores he hm with hm | hm | hx
    · exact .inl hm
    · refine .inr (.inr (.inl ?_))
      refine forall_nodeChanges (P := fun y => y = .message m → _) (fun move _ y hy heq => ?_)
        (fun _ _ heq => ?_) (fun _ _ heq => ?_) _ hm rfl
      · exact (heq ▸ plain_moveChanges n move y hy : Plain (.message m)).elim
      · cases heq
        exact ⟨_, _, rfl⟩
      · cases heq
    · exact .inr (.inl hx)

/-- What a solver sends when it serves a queue. -/
theorem mem_outbox_serveQueue {queue : WorkQueue} (hm : m ∈ (s.serveQueue c g queue).outbox) :
    m ∈ s.outbox ∨ s.Sends c m := by
  rcases serveQueue_cases c g s queue with
    heq | ⟨d, calls, hpoll, heq⟩ | ⟨d, fields, hpoll, heq⟩ | ⟨n, pending, -, heq⟩
  · rw [heq] at hm
    exact .inl hm
  · rw [heq] at hm
    exact (mem_outbox_makeAll hm).imp_right (.call hpoll)
  · rw [heq] at hm
    exact (mem_outbox_makeAll hm).imp_right (.field hpoll)
  · rw [heq] at hm
    rcases mem_outbox_process hm with hm | ⟨x, rfl⟩ | ⟨base, field, rfl⟩ | ⟨rfl, hcheck⟩
    · exact .inl hm
    · exact .inr (.wanted x)
    · exact .inr (.fieldWrite n base field)
    · exact .inr (.unreachable n hcheck)

end DemandAlias.Solver
