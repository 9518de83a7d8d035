import DemandAlias.Proofs.Solver.Change

/-!
# Solvers only grow

Nothing a solver has found is ever taken back. A change keeps what was there
(`Extends`), leaves a well-formed solver well-formed (`Sound`), and is there once it is
made (`Made`). It also takes no work away that is still to be done (`Settled`).

A request that was made before is not made again. It listens to a topic that follows from
the state it is about (`CallRequest.topic`), so nothing is lost by that.
-/

namespace DemandAlias

open Automaton (listens_listen listens_add mem_transitions_add transitions_listen consistent_add
  told_add consistent_listen told_listen)

variable {t : CallTransition}

/-- The topic that a request about `state` listens to. The frames of callers are looked
    for at a store first, and then below a frame. -/
def CallRequest.topic (state : State) : CallRequest → Topic State Statement
  | .callerFrames _ store _ _ => if state.var?.isSome then .outBy state store.stmt else .out state
  | .returnSites _ _ _ _ => .into state
  | .storeContext _ value => .outBy state value.stmt
  | .copy _ => .out state

namespace Solver

open Std
open HashSet (mem_insert contains_iff_mem mem_insert_self)

variable {ω : Type} {s' : Solver ω}
variable {s : Solver ω} {x : Change ω}

/-! ### Growing -/

/-- Everything the solver has is still there, its messages apart. -/
structure Grows (s s' : Solver ω) : Prop where
  id : s'.id = s.id
  direction : s'.direction = s.direction
  seed : s'.seed = s.seed
  final : s'.calls.final = s.calls.final
  calls : ∀ {t}, t ∈ s.calls.transitions → t ∈ s'.calls.transitions
  fields : ∀ {t}, t ∈ s.fields.transitions → t ∈ s'.fields.transitions
  callRules : ∀ {topic k}, s.calls.Listens topic k → s'.calls.Listens topic k
  fieldRules : ∀ {topic k}, s.fields.Listens topic k → s'.fields.Listens topic k
  callReached : ∀ {n}, n ∈ s.callReached → n ∈ s'.callReached
  fieldReached : ∀ {n}, n ∈ s.fieldReached → n ∈ s'.fieldReached
  reached : ∀ {n}, n ∈ s.reached → n ∈ s'.reached
  callRequests : ∀ {x}, x ∈ s.callRequests → x ∈ s'.callRequests
  fieldRequests : ∀ {x}, x ∈ s.fieldRequests → x ∈ s'.fieldRequests
  unwinding : ∀ {x}, x ∈ s.unwinding → x ∈ s'.unwinding

namespace Grows

theorem refl (s : Solver ω) : Grows s s where
  id := rfl
  direction := rfl
  seed := rfl
  final := rfl
  calls h := h
  fields h := h
  callRules h := h
  fieldRules h := h
  callReached h := h
  fieldReached h := h
  reached h := h
  callRequests h := h
  fieldRequests h := h
  unwinding h := h

theorem trans {s s' s'' : Solver ω} (h : Grows s s') (h' : Grows s' s'') : Grows s s'' where
  id := h'.id.trans h.id
  direction := h'.direction.trans h.direction
  seed := h'.seed.trans h.seed
  final := h'.final.trans h.final
  calls ht := h'.calls (h.calls ht)
  fields ht := h'.fields (h.fields ht)
  callRules hk := h'.callRules (h.callRules hk)
  fieldRules hk := h'.fieldRules (h.fieldRules hk)
  callReached hn := h'.callReached (h.callReached hn)
  fieldReached hn := h'.fieldReached (h.fieldReached hn)
  reached hn := h'.reached (h.reached hn)
  callRequests hx := h'.callRequests (h.callRequests hx)
  fieldRequests hx := h'.fieldRequests (h.fieldRequests hx)
  unwinding hx := h'.unwinding (h.unwinding hx)

theorem bottom {s s' : Solver ω} (h : Grows s s') : s'.bottom = s.bottom := by
  rw [Solver.bottom, Solver.bottom, h.seed]

end Grows

/-- Everything the solver has is still there, its messages included, and its view of
    the call graph is the same. -/
structure Extends (s s' : Solver ω) : Prop extends Grows s s' where
  outbox : ∀ {m}, m ∈ s.outbox → m ∈ s'.outbox
  watches : s'.watches = s.watches
  edgesSeen : s'.edgesSeen = s.edgesSeen

namespace Extends

theorem refl (s : Solver ω) : Extends s s := ⟨.refl s, fun h => h, rfl, rfl⟩

theorem trans {s s' s'' : Solver ω} (h : Extends s s') (h' : Extends s' s'') : Extends s s'' :=
  ⟨h.toGrows.trans h'.toGrows, fun hm => h'.outbox (h.outbox hm), h'.watches.trans h.watches,
    h'.edgesSeen.trans h.edgesSeen⟩

end Extends

/-! ### Changes made -/

/-- The change has been made. A message may have left the outbox since; `sent` says which have. -/
def Made (sent : Message → Prop) (s : Solver ω) : Change ω → Prop
  | .call t _ => t ∈ s.calls.transitions
  | .field t => t ∈ s.fields.transitions
  | .callRule topic rule => s.calls.Listens topic rule
  | .fieldRule topic rule => s.fields.Listens topic rule
  | .reachByCalls n => n ∈ s.callReached
  | .reachByFields n => n ∈ s.fieldReached
  | .message m => m ∈ s.outbox ∨ sent m
  | .callRequest state _ r => (state, r) ∈ s.callRequests
  | .fieldRequest state _ r => (state, r) ∈ s.fieldRequests
  | .unwind state label target frames => (state, label, target, frames) ∈ s.unwinding

theorem Made.mono {sent sent' : Message → Prop} (hx : Made sent s x) (h : Grows s s')
    (hm : ∀ m, m ∈ s.outbox ∨ sent m → m ∈ s'.outbox ∨ sent' m) :
    Made sent' s' x := by
  cases x with
  | call => exact h.calls hx
  | field => exact h.fields hx
  | callRule => exact h.callRules hx
  | fieldRule => exact h.fieldRules hx
  | reachByCalls => exact h.callReached hx
  | reachByFields => exact h.fieldReached hx
  | message m => exact hm m hx
  | callRequest => exact h.callRequests hx
  | fieldRequest => exact h.fieldRequests hx
  | unwind => exact h.unwinding hx

theorem Made.extends {sent : Message → Prop} (hx : Made sent s x) (h : Extends s s') :
    Made sent s' x :=
  hx.mono h.toGrows fun _ hm => hm.imp_left h.outbox

theorem eq_or_mem_of_insert {α : Type} [BEq α] [Hashable α] [LawfulBEq α] {noted : HashSet α}
    {a b : α} (h : b ∈ noted.insert a) : a = b ∨ b ∈ noted :=
  (mem_insert.1 h).imp_left eq_of_beq

/-- Once both automata reach a node, it is among the nodes reached; a node that is new
    there waits to be processed. -/
theorem reach_eq (s : Solver ω) (n : Node) :
    ∃ reached pending, s.reach n = { s with reached, pending } ∧
      (∀ m, m ∈ reached ↔ m ∈ s.reached ∨ m = n ∧ n ∈ s.callReached ∧ n ∈ s.fieldReached) ∧
      (∀ m, m ∈ reached → m ∈ s.reached ∨ m ∈ pending.toList) ∧
      (∀ m, m ∈ s.pending.toList → m ∈ pending.toList) ∧
      (∀ m, m ∈ pending.toList → m ∈ s.pending.toList ∨ m ∈ reached) := by
  unfold reach
  split
  · next hn =>
    simp only [and_eq_true, contains_iff_mem] at hn
    refine ⟨_, _, rfl, fun m => ?_, fun m hm => ?_, fun m hm => ?_, fun m hm => ?_⟩
    · rw [OrderedSet.mem_insert, or_comm, and_iff_left hn.1]
    · rw [Queue.toList_push, mem_append, mem_singleton]
      exact ((OrderedSet.mem_insert ..).1 hm).elim (fun heq => .inr (.inr heq)) .inl
    · rw [Queue.toList_push]
      exact mem_append_left _ hm
    · rw [Queue.toList_push, mem_append, mem_singleton] at hm
      exact hm.imp_right fun heq => (OrderedSet.mem_insert ..).2 (.inl heq)
  · next hn =>
    refine ⟨s.reached, s.pending, rfl, fun m => ⟨.inl, fun hm => hm.elim (fun hm => hm) ?_⟩,
      fun m => .inl, fun m hm => hm, fun m => .inl⟩
    rintro ⟨rfl, hboth⟩
    refine Classical.byContradiction fun hnot => hn ?_
    simp only [and_eq_true, contains_iff_mem, Bool.not_eq_true',
      eq_false_iff, Ne, OrderedSet.contains_iff]
    exact ⟨hboth, hnot⟩

/-! ### Work to be done -/

/-- Every event is delivered, and every node reached is processed, or waits for that;
    the predicates say which are. -/
structure Settled (callDone : CallRule ω → CallTransition → Prop)
    (fieldDone : FieldRule → FieldTransition → Prop) (nodeDone : Node → Prop) (s : Solver ω) :
    Prop where
  calls : s.calls.Told callDone
  fields : s.fields.Told fieldDone
  nodes : ∀ {n}, n ∈ s.reached → n ∈ s.pending.toList ∨ nodeDone n

theorem Settled.mono {callDone callDone' : CallRule ω → CallTransition → Prop}
    {fieldDone fieldDone' : FieldRule → FieldTransition → Prop} {nodeDone nodeDone' : Node → Prop}
    (h : s.Settled callDone fieldDone nodeDone) (hc : ∀ k t, callDone k t → callDone' k t)
    (hf : ∀ k t, fieldDone k t → fieldDone' k t) (hn : ∀ n, nodeDone n → nodeDone' n) :
    s.Settled callDone' fieldDone' nodeDone' where
  calls := h.calls.mono hc
  fields := h.fields.mono hf
  nodes hr := (h.nodes hr).imp_right (hn _)

/-! ### Well-formed solvers -/

variable [Weight ω]

/-- A solver that notes the nodes reached, and only nodes that have transitions, and whose
    requests listen to their topics. -/
structure Sound (s : Solver ω) : Prop where
  calls : s.calls.Consistent
  fields : s.fields.Consistent
  callReach : s.calls.Listens .all .reach
  fieldReach : s.fields.Listens .all .reach
  popMatch : ∀ {topic target w}, s.calls.Listens topic (.popMatch target w) → w ≠ zero
  callReached : ∀ {n}, n ∈ s.callReached → ∃ q, callAt n q ∈ s.calls.transitions
  fieldReached : ∀ {n}, n ∈ s.fieldReached → ∃ l q, fieldAt n l q ∈ s.fields.transitions
  reached : ∀ n, n ∈ s.reached ↔ n ∈ s.callReached ∧ n ∈ s.fieldReached
  pending : ∀ {n}, n ∈ s.pending.toList → n ∈ s.reached
  targets : ∀ {t}, t ∈ s.calls.transitions → t.target.var? = none
  callRequests : ∀ {state r}, (state, r) ∈ s.callRequests →
    s.calls.Listens (r.topic state) (.request r)
  fieldRequests : ∀ {state r}, (state, r) ∈ s.fieldRequests →
    s.fields.Listens (.outBy state .epsilon) (.request r)
  unwinding : ∀ {state label target frames}, (state, label, target, frames) ∈ s.unwinding →
    s.calls.Listens (.outBy state label) (.unwind target frames)

/-- What is noted of the call graph and of the order of work does not matter. -/
theorem Sound.note (h : s.Sound) {watches edgesSeen visited outbox last} :
    Sound { s with watches, edgesSeen, visited, outbox, last } := { h with }

/-- The change adds something that weighs more than zero, or notes a node that has
    transitions, or listens to the topic of a request. -/
def Proper (s : Solver ω) : Change ω → Prop
  | .call t w => w ≠ zero ∧ t.target.var? = none
  | .callRule _ (.popMatch _ w) => w ≠ zero
  | .reachByCalls n => ∃ q, callAt n q ∈ s.calls.transitions
  | .reachByFields n => ∃ l q, fieldAt n l q ∈ s.fields.transitions
  | .callRequest state topic r => topic = r.topic state
  | .fieldRequest state topic _ => topic = .outBy state .epsilon
  | _ => True

theorem Proper.grows (hx : s.Proper x) (h : Grows s s') : s'.Proper x := by
  cases x with
  | callRule _ rule => cases rule <;> exact hx
  | reachByCalls => exact hx.imp fun _ => h.calls
  | reachByFields => exact hx.imp fun _ => .imp fun _ => h.fields
  | _ => exact hx

/-- The change adds a rule, a request or a transition of some weight: what other solvers
    and the call graph may let a solver change. -/
def Plain : Change ω → Prop
  | .call t w => w ≠ zero ∧ t.target.var? = none
  | .callRule _ (.popMatch _ _) | .reachByCalls _ | .reachByFields _ | .message _ => False
  | .callRequest state topic r => topic = r.topic state
  | .fieldRequest state topic _ => topic = .outBy state .epsilon
  | _ => True

theorem Plain.proper (hx : Plain x) (s : Solver ω) : s.Proper x := by
  cases x with
  | call _ _ | callRequest _ _ _ | fieldRequest _ _ _ => exact hx
  | callRule _ rule => cases rule <;> trivial
  | message _ | reachByCalls _ | reachByFields _ => exact hx.elim
  | _ => trivial

/-- A change that sends nothing is made no matter what was sent. -/
theorem Made.of_plain {sent sent' : Message → Prop} (hx : Plain x) (hmade : Made sent s x) :
    Made sent' s x := by
  cases x with
  | message => exact hx.elim
  | _ => exact hmade

theorem outbox_makeAll [DecidableEq ω] (s : Solver ω) {xs : List (Change ω)}
    (hxs : ∀ x ∈ xs, Plain x) : (s.makeAll xs).outbox = s.outbox := by
  induction xs generalizing s with
  | nil => rfl
  | cons x _ ih =>
    rw [makeAll_cons, ih _ fun y hy => hxs y (mem_cons_of_mem _ hy)]
    rcases (frame_make s x).2.2.2 with heq | ⟨m, rfl, -⟩
    · exact heq
    · exact (hxs _ mem_cons_self).elim

/-- The solver `s'` is `s` with the change `x` made. -/
structure Performs (x : Change ω) (s s' : Solver ω) : Prop where
  sound : s'.Sound
  extension : Extends s s'
  made : ∀ sent, Made sent s' x
  settled : ∀ {callDone fieldDone nodeDone}, s.Settled callDone fieldDone nodeDone →
    s'.Settled callDone fieldDone nodeDone

/-! ### Each change is performed -/

section Make

variable (h : s.Sound)
include h

theorem performs_addField (t : FieldTransition) :
    Performs (.field t) s (s.addField t) where
  sound :=
    { h with
      fields := consistent_add h.fields t .one
      fieldReach := (listens_add ..).2 h.fieldReach
      fieldReached := fun hn => (h.fieldReached hn).imp fun _ => .imp fun _ hq =>
        (mem_transitions_add h.fields ..).2 (.inl hq)
      fieldRequests := fun hx => (listens_add ..).2 (h.fieldRequests hx) }
  extension :=
    { Extends.refl s with
      fields := fun ht => (mem_transitions_add h.fields ..).2 (.inl ht)
      fieldRules := fun hk => (listens_add ..).2 hk }
  made _ := (mem_transitions_add h.fields ..).2 (.inr ⟨rfl, nofun⟩)
  settled hs := { hs with fields := told_add h.fields hs.fields t .one }

theorem performs_onCalls (topic : Topic State Statement) (rule : CallRule ω)
    (hrule : ∀ target w, rule = .popMatch target w → w ≠ zero) :
    Performs (.callRule topic rule) s (s.onCalls topic rule) where
  sound :=
    { h with
      calls := consistent_listen h.calls topic rule
      callReach := (listens_listen ..).2 (.inl h.callReach)
      popMatch := fun hk => ((listens_listen ..).1 hk).elim h.popMatch
        fun hk => hrule _ _ hk.2.symm
      callReached := fun hn => (h.callReached hn).imp fun _ hq => by
        rwa [onCalls, transitions_listen]
      targets := fun ht => h.targets (by rwa [onCalls, transitions_listen] at ht)
      callRequests := fun hx => (listens_listen ..).2 (.inl (h.callRequests hx))
      unwinding := fun hx => (listens_listen ..).2 (.inl (h.unwinding hx)) }
  extension :=
    { Extends.refl s with
      final := Automaton.final_listen ..
      calls := fun ht => by rwa [onCalls, transitions_listen]
      callRules := fun hk => (listens_listen ..).2 (.inl hk) }
  made _ := (listens_listen ..).2 (.inr ⟨rfl, rfl⟩)
  settled hs := { hs with calls := told_listen h.calls hs.calls topic rule }

theorem performs_onFields (topic : Topic State Field) (rule : FieldRule) :
    Performs (.fieldRule topic rule) s (s.onFields topic rule) where
  sound :=
    { h with
      fields := consistent_listen h.fields topic rule
      fieldReach := (listens_listen ..).2 (.inl h.fieldReach)
      fieldReached := fun hn => (h.fieldReached hn).imp fun _ => .imp fun _ hq => by
        rwa [onFields, transitions_listen]
      fieldRequests := fun hx => (listens_listen ..).2 (.inl (h.fieldRequests hx)) }
  extension :=
    { Extends.refl s with
      fields := fun ht => by rwa [onFields, transitions_listen]
      fieldRules := fun hk => (listens_listen ..).2 (.inl hk) }
  made _ := (listens_listen ..).2 (.inr ⟨rfl, rfl⟩)
  settled hs := { hs with fields := told_listen h.fields hs.fields topic rule }

/-- Nothing is to be done for a change that has been noted already. -/
theorem performs_unless {α : Type} [BEq α] [Hashable α] {noted : HashSet α} {a : α}
    (hmade : a ∈ noted → ∀ sent, Made sent s x) (hp : Performs x s s') :
    Performs x s (if noted.contains a then s else s') := by
  split
  · next hmem => exact ⟨h, .refl s, hmade (contains_iff_mem.1 hmem), fun hs => hs⟩
  · exact hp

/-- What `reach_eq` says, if one of the automata has just come to `n`, as noted in `s'`. -/
theorem reach_noted (n : Node) (s' : Solver ω) (hreached : s'.reached = s.reached)
    (hpending : s'.pending = s.pending)
    (hnoted : ∀ m, m ∈ s'.callReached ∧ m ∈ s'.fieldReached ↔
      m ∈ s.callReached ∧ m ∈ s.fieldReached ∨ m = n ∧ n ∈ s'.callReached ∧ n ∈ s'.fieldReached) :
    ∃ reached pending, s'.reach n = { s' with reached, pending } ∧
      (∀ m, m ∈ reached ↔ m ∈ s'.callReached ∧ m ∈ s'.fieldReached) ∧
      (∀ {m}, m ∈ pending.toList → m ∈ reached) ∧ (∀ {m}, m ∈ s.reached → m ∈ reached) ∧
      ∀ {done : Node → Prop}, (∀ {m}, m ∈ s.reached → m ∈ s.pending.toList ∨ done m) →
        ∀ {m}, m ∈ reached → m ∈ pending.toList ∨ done m := by
  obtain ⟨reached, pending, heq, hmem, hnew, hkept, hold⟩ := reach_eq s' n
  simp only [hreached, hpending] at hmem hnew hkept hold
  refine ⟨reached, pending, heq, fun m => ?_, fun {m} hm => ?_, fun hm => (hmem _).2 (.inl hm),
    fun hs m hm => ?_⟩
  · rw [hmem, h.reached, ← hnoted]
  · exact (hold m hm).elim (fun hm => (hmem m).2 (.inl (h.pending hm))) fun hm => hm
  · exact (hnew m hm).elim (fun hm => (hs hm).imp_left (hkept m)) .inl

theorem performs_reachByCalls {n : Node} (hn : ∃ q, callAt n q ∈ s.calls.transitions) :
    Performs (.reachByCalls n) s (s.reachByCalls n) := by
  refine performs_unless h (fun hmem _ => hmem) ?_
  obtain ⟨reached, pending, heq, hreached, hpending, hold, hnodes⟩ := reach_noted h n
    { s with
      callReached := s.callReached.insert n
      calls := s.calls.addInitial (.single n.var) } rfl rfl
    fun m => by simp only [mem_insert, beq_iff_eq]; grind
  rw [heq]
  exact {
    sound :=
      { h with
        calls := Automaton.consistent_addInitial h.calls _
        callReached := fun hm => (eq_or_mem_of_insert hm).elim (fun heq => heq ▸ hn) h.callReached
        reached := hreached
        pending := hpending }
    extension :=
      { Extends.refl s with callReached := fun hm => mem_insert.2 (.inr hm), reached := hold }
    made := fun _ => mem_insert_self
    settled := fun hs => { hs with nodes := hnodes hs.nodes } }

theorem performs_reachByFields {n : Node} (hn : ∃ l q, fieldAt n l q ∈ s.fields.transitions) :
    Performs (.reachByFields n) s (s.reachByFields n) := by
  refine performs_unless h (fun hmem _ => hmem) ?_
  obtain ⟨reached, pending, heq, hreached, hpending, hold, hnodes⟩ := reach_noted h n
    { s with
      fieldReached := s.fieldReached.insert n
      fields := s.fields.addInitial (.located n) } rfl rfl
    fun m => by simp only [mem_insert, beq_iff_eq]; grind
  rw [heq]
  exact {
    sound :=
      { h with
        fields := Automaton.consistent_addInitial h.fields _
        fieldReached := fun hm => (eq_or_mem_of_insert hm).elim (fun heq => heq ▸ hn) h.fieldReached
        reached := hreached
        pending := hpending }
    extension :=
      { Extends.refl s with fieldReached := fun hm => mem_insert.2 (.inr hm), reached := hold }
    made := fun _ => mem_insert_self
    settled := fun hs => { hs with nodes := hnodes hs.nodes } }

theorem performs_requestCalls {state : State} {topic : Topic State Statement} {r : CallRequest}
    (htopic : topic = r.topic state) :
    Performs (.callRequest state topic r) s (s.requestCalls state topic r) := by
  have hp := performs_onCalls h topic (.request r) fun _ _ hr => by cases hr
  refine performs_unless h (fun hmem _ => hmem) ⟨?_, ?_, fun _ => mem_insert_self,
    fun hs => { hp.settled hs with }⟩
  · refine { hp.sound with callRequests := fun hx => ?_ }
    rcases eq_or_mem_of_insert hx with heq | hx
    · cases heq
      exact htopic ▸ hp.made fun _ => False
    · exact hp.sound.callRequests hx
  · exact { hp.extension with callRequests := fun hx => mem_insert.2 (.inr hx) }

theorem performs_requestFields {state : State} {topic : Topic State Field}
    (htopic : topic = .outBy state .epsilon) (r : FieldRequest) :
    Performs (.fieldRequest state topic r) s (s.requestFields state topic r) := by
  have hp := performs_onFields h topic (.request r)
  refine performs_unless h (fun hmem _ => hmem) ⟨?_, ?_, fun _ => mem_insert_self,
    fun hs => { hp.settled hs with }⟩
  · refine { hp.sound with fieldRequests := fun hx => ?_ }
    rcases eq_or_mem_of_insert hx with heq | hx
    · cases heq
      exact htopic ▸ hp.made fun _ => False
    · exact hp.sound.fieldRequests hx
  · exact { hp.extension with fieldRequests := fun hx => mem_insert.2 (.inr hx) }

theorem performs_unwind (state : State) (label : Statement) (target : Node)
    (frames : List Statement) :
    Performs (.unwind state label target frames) s (s.unwind state label target frames) := by
  have hp := performs_onCalls h (.outBy state label) (.unwind target frames)
    fun _ _ hr => by cases hr
  refine performs_unless h (fun hmem _ => hmem) ⟨?_, ?_, fun _ => mem_insert_self,
    fun hs => { hp.settled hs with }⟩
  · refine { hp.sound with unwinding := fun hx => ?_ }
    rcases eq_or_mem_of_insert hx with heq | hx
    · cases heq
      exact hp.made fun _ => False
    · exact hp.sound.unwinding hx
  · exact { hp.extension with unwinding := fun hx => mem_insert.2 (.inr hx) }

variable [DecidableEq ω] [ZeroFree ω]

theorem performs_addCall {w : ω} (hw : w ≠ zero)
    (htarget : t.target.var? = none) : Performs (.call t w) s (s.addCall t w) where
  sound :=
    { h with
      calls := consistent_add h.calls t w
      callReach := (listens_add ..).2 h.callReach
      popMatch := fun hk => h.popMatch ((listens_add ..).1 hk)
      callReached := fun hn => (h.callReached hn).imp fun _ hq =>
        (mem_transitions_add h.calls ..).2 (.inl hq)
      targets := fun ht => ((mem_transitions_add h.calls ..).1 ht).elim h.targets
        fun ht => ht.1 ▸ htarget
      callRequests := fun hx => (listens_add ..).2 (h.callRequests hx)
      unwinding := fun hx => (listens_add ..).2 (h.unwinding hx) }
  extension :=
    { Extends.refl s with
      final := Automaton.final_add ..
      calls := fun ht => (mem_transitions_add h.calls ..).2 (.inl ht)
      callRules := fun hk => (listens_add ..).2 hk }
  made _ := (mem_transitions_add h.calls ..).2 (.inr ⟨rfl, hw⟩)
  settled hs := { hs with calls := told_add h.calls hs.calls t w }

/-- A change that is made is performed. -/
theorem performs_make {x : Change ω} (hx : s.Proper x) : Performs x s (s.make x) := by
  cases x with
  | call => exact performs_addCall h hx.1 hx.2
  | field t => exact performs_addField h t
  | callRule topic rule =>
    refine performs_onCalls h topic rule fun target w hrule => ?_
    subst hrule
    exact hx
  | fieldRule topic rule => exact performs_onFields h topic rule
  | reachByCalls => exact performs_reachByCalls h hx
  | reachByFields => exact performs_reachByFields h hx
  | message m =>
    exact ⟨{ h with }, { Extends.refl s with outbox := fun hm => mem_cons_of_mem _ hm },
      fun _ => .inl mem_cons_self, fun hs => { hs with }⟩
  | callRequest => exact performs_requestCalls h hx
  | fieldRequest _ _ r => exact performs_requestFields h hx r
  | unwind state label target frames => exact performs_unwind h state label target frames

/-- The solver `s'` is `s` with all changes of a list made. -/
structure PerformsAll (xs : List (Change ω)) (s s' : Solver ω) : Prop where
  sound : s'.Sound
  extension : Extends s s'
  made : ∀ sent, ∀ x ∈ xs, Made sent s' x
  settled : ∀ {callDone fieldDone nodeDone}, s.Settled callDone fieldDone nodeDone →
    s'.Settled callDone fieldDone nodeDone

/-- Changes that are made are performed. -/
theorem performsAll_makeAll {xs : List (Change ω)} (hxs : ∀ x ∈ xs, s.Proper x) :
    PerformsAll xs s (s.makeAll xs) := by
  induction xs generalizing s with
  | nil => exact ⟨h, .refl s, fun _ _ hx => (nomatch hx), fun hs => hs⟩
  | cons x _ ih =>
    have hx := performs_make h (hxs x mem_cons_self)
    have hrest := ih hx.sound fun y hy =>
      (hxs y (mem_cons_of_mem _ hy)).grows hx.extension.toGrows
    refine ⟨hrest.sound, hx.extension.trans hrest.extension, fun sent y hy => ?_,
      fun hs => hrest.settled (hx.settled hs)⟩
    rcases mem_cons.1 hy with rfl | hy
    · exact (hx.made sent).extends hrest.extension
    · exact hrest.made sent y hy

end Make

/-! ### Changes are proper -/

/-- What follows a move is plain. -/
theorem plain_moveChanges (n : Node) (m : Move) : ∀ x ∈ m.changes n, Plain (x : Change ω) := by
  refine Move.forall_changes ?_ trivial
  rcases m with _ | ⟨_, _ | _⟩ | ⟨_, _ | _⟩ <;> trivial

theorem proper_moveChanges (s : Solver ω) (n : Node) (m : Move) :
    ∀ x ∈ m.changes n, s.Proper x :=
  fun x hx => (plain_moveChanges n m x hx).proper s

theorem proper_effectChanges (s : Solver ω) (n : Node) (e : Effect) :
    ∀ x ∈ e.changes n, s.Proper x := by
  intro x hx
  cases e <;> rw [mem_singleton.1 hx] <;> trivial

theorem proper_callRequestChanges (s : Solver ω) (p : Program) (bottom : State) (r : CallRequest)
    (ht : t.target.var? = none) :
    ∀ x ∈ r.changes p bottom t, s.Proper x := by
  intro x hx
  cases CallRequest.yields_of_mem hx with
  | search | deeper => simp [Proper, CallRequest.topic, ht]
  | sites | returnAlias => exact rfl
  | storeContext | copied => trivial

/-- What a rule makes of a transition of the automaton of calls is proper. -/
theorem proper_callRuleChanges [ZeroFree ω] {c : Setting ω} (hc : c.weighing.ZeroFree) (h : s.Sound)
    {rule : CallRule ω} {topic : Topic State Statement} (hrule : s.calls.Listens topic rule)
    (ht : t ∈ s.calls.transitions) {w : ω} (hw : w ≠ zero) (bottom : State) :
    ∀ x ∈ rule.changes c bottom t w, s.Proper x := by
  intro x hx
  have htarget := h.targets ht
  cases CallRule.yields_of_mem hx with
  | reach hsource =>
    obtain ⟨source, label, target⟩ := t
    cases hsource
    exact ⟨target, ht⟩
  | step source target => exact ⟨ZeroFree.extend_ne_zero hw (hc.step source target), htarget⟩
  | enter source target => exact ⟨hc.enter source target, rfl⟩
  | frame | unwound => exact ⟨hw, htarget⟩
  | leave source target => exact ⟨ZeroFree.extend_ne_zero hw (hc.leave source target), htarget⟩
  | pop source target => exact ZeroFree.extend_ne_zero hw (hc.leave source target)
  | popMatch => exact ⟨ZeroFree.extend_ne_zero hw (h.popMatch hrule), htarget⟩
  | unwind => trivial
  | request => exact proper_callRequestChanges s c.program bottom _ htarget x hx

/-- What a rule makes of a transition of the automaton of fields is proper. -/
theorem proper_fieldRuleChanges {rule : FieldRule} {t : FieldTransition}
    (ht : t ∈ s.fields.transitions) : ∀ x ∈ rule.changes t, s.Proper x := by
  intro x hx
  cases FieldRule.yields_of_mem hx with
  | reach hsource =>
    obtain ⟨source, label, target⟩ := t
    cases hsource
    exact ⟨label, target, ht⟩
  | step | push | below | pop | popMatch => trivial
  | request h => cases h <;> trivial

end Solver

end DemandAlias
