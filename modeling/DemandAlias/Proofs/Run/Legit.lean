import DemandAlias.Analysis.Run
import DemandAlias.Proofs.Solver.Bound

/-!
# Legitimate requests and messages

Requests are made on behalf of solvers that there are, and messages about stores are
about stores. Whatever a solver does, it only comes to requests and messages of this
kind (`legit_closed`), as long as those it is given are.
-/

namespace DemandAlias

/-- The solver that makes a request. -/
def CallRequest.requester : CallRequest → SolverId
  | .callerFrames requester _ _ _ | .returnSites requester _ _ _ | .storeContext requester _
  | .copy requester => requester

/-- The local of the node is written to the field there. -/
def Node.Writes (n : Node) (field : Field) : Prop := ∃ base, n.stmt.action = .store base field n.var

/-- The request is made by one of `size` solvers, and the store it is about is one. -/
def CallRequest.Legit (size : Nat) : CallRequest → Prop
  | .callerFrames requester store field _ | .returnSites requester store field _ =>
    requester.index < size ∧ store.Writes field
  | .storeContext requester _ | .copy requester => requester.index < size

/-- The request is made by one of `size` solvers, or by the solver itself, and the store it is
    about is one. -/
def FieldRequest.Legit (size : Nat) : FieldRequest → Prop
  | .allocation _ => True
  | .aliasesAt requester store _ field | .returnAlias requester store field _ =>
    requester.index < size ∧ store.Writes field
  | .storesOf requester _ _ => requester.index < size

/-- The message is for one of `size` solvers, and the stores it is about are stores. -/
def Message.Legit (size : Nat) : Message → Prop
  | .wanted _ | .allocation _ _ _ | .unreachable _ => True
  | .fieldWrite store base field => store.stmt.action = .store base field store.var
  | .aliasAt requester store field _ _ => requester.index < size ∧ store.Writes field
  | .storeContext requester _ _ | .copied requester _ => requester.index < size
  | .storeFound requester _ store value =>
    requester.index < size ∧ ∃ field, store.stmt.action = .store store.var field value

/-- The subscriber works for one of `size` solvers, and the store it is about is one. -/
def Subscriber.Legit (size : Nat) : Subscriber → Prop
  | .fieldWrite requester store base field =>
    requester.index < size ∧ store.stmt.action = .store base field store.var
  | .resolve _ _ | .aliases => True

/-- All requests and messages are legitimate. -/
def legit {ω : Type} (size : Nat) : Bound ω where
  call _ := True
  field _ := True
  callRule _ rule := ∀ r, rule = .request r → r.Legit size
  fieldRule _ rule := ∀ r, rule = .request r → r.Legit size
  message m := m.Legit size
  watcher _ _ := True

section Legit

variable {ω : Type} {size size' : Nat}

theorem CallRequest.Legit.mono {r : CallRequest} (h : r.Legit size) (hle : size ≤ size') :
    r.Legit size' := by
  cases r with
  | callerFrames _ _ _ _ | returnSites _ _ _ _ => exact h.imp_left (Nat.lt_of_lt_of_le · hle)
  | storeContext _ _ | copy _ => exact Nat.lt_of_lt_of_le h hle

theorem FieldRequest.Legit.mono {r : FieldRequest} (h : r.Legit size) (hle : size ≤ size') :
    r.Legit size' := by
  cases r with
  | allocation => trivial
  | aliasesAt _ _ _ _ | returnAlias _ _ _ _ => exact h.imp_left (Nat.lt_of_lt_of_le · hle)
  | storesOf => exact Nat.lt_of_lt_of_le h hle

theorem Message.Legit.mono {m : Message} (h : m.Legit size) (hle : size ≤ size') :
    m.Legit size' := by
  cases m with
  | wanted _ | allocation _ _ _ | unreachable _ => trivial
  | fieldWrite => exact h
  | aliasAt => exact h.imp_left (Nat.lt_of_lt_of_le · hle)
  | storeContext _ _ _ | copied _ _ => exact Nat.lt_of_lt_of_le h hle
  | storeFound => exact ⟨Nat.lt_of_lt_of_le h.1 hle, h.2⟩

theorem Subscriber.Legit.mono {k : Subscriber} (h : k.Legit size) (hle : size ≤ size') :
    k.Legit size' := by
  cases k with
  | fieldWrite => exact ⟨Nat.lt_of_lt_of_le h.1 hle, h.2⟩
  | resolve _ _ | aliases => trivial

theorem allows_callRequestChanges (p : Program) (bottom : State) {r : CallRequest}
    (h : r.Legit size) (t : CallTransition) :
    ∀ x ∈ r.changes p bottom t, (legit (ω := ω) size).Allows x := by
  intro x hx
  cases CallRequest.yields_of_mem hx with
  | search | sites | deeper | returnAlias =>
    rintro r ⟨⟩
    exact h
  | storeContext | copied => exact h

theorem allows_fieldRequestChanges {r : FieldRequest} (h : r.Legit size) (t : FieldTransition) :
    ∀ x ∈ r.changes t, (legit (ω := ω) size).Allows x := by
  intro x hx
  cases FieldRequest.yields_of_mem hx with
  | allocation => trivial
  | aliasAt | returnAlias => exact h
  | storeFound _ _ _ _ haction => exact ⟨h, _, haction⟩

theorem allows_callRuleChanges [Weight ω] (c : Setting ω) (bottom : State) {rule : CallRule ω}
    (h : ∀ r, rule = .request r → r.Legit size) (t : CallTransition) (w : ω) :
    ∀ x ∈ rule.changes c bottom t w, (legit size).Allows x := by
  intro x hx
  cases CallRule.yields_of_mem hx with
  | reach | step | enter | frame | leave | popMatch | unwound => trivial
  | pop | unwind => rintro r ⟨⟩
  | request => exact allows_callRequestChanges c.program bottom (h _ rfl) t x hx

theorem allows_fieldRuleChanges {rule : FieldRule} (h : ∀ r, rule = .request r → r.Legit size)
    (t : FieldTransition) : ∀ x ∈ rule.changes t, (legit (ω := ω) size).Allows x := by
  intro x hx
  cases FieldRule.yields_of_mem hx with
  | reach | step | push | below | popMatch => trivial
  | pop => rintro r ⟨⟩
  | request => exact allows_fieldRequestChanges (h _ rfl) t x hx

theorem fieldRule_ne_request (m : Move) (r : FieldRequest) : m.fieldRule ≠ .request r := by
  rcases m with _ | ⟨_, _ | _⟩ | ⟨_, _ | _⟩ <;> intro h <;> cases h

theorem allows_moveChanges (n : Node) (m : Move) :
    ∀ x ∈ m.changes n, (legit (ω := ω) size).Allows x :=
  Move.forall_changes (by rcases m with _ | ⟨_, _ | _⟩ | ⟨_, _ | _⟩ <;> rintro _ ⟨⟩)
    fun r hr => absurd hr (fieldRule_ne_request m r)

/-- Legitimate requests and messages only lead to such. -/
theorem legit_closed [Weight ω] (c : Setting ω) (g : CallGraph) (s : Solver ω) (size : Nat) :
    (legit size).Closed c g s where
  callRules hrule _ _ w := allows_callRuleChanges c s.bottom hrule _ w
  fieldRules hrule _ _ := allows_fieldRuleChanges hrule _
  nodes {n _ _ _} _ _ _ := by
    refine Solver.forall_nodeChanges (fun m _ => allows_moveChanges n m)
      (fun _ haction => haction) fun _ _ => ?_
    rintro r ⟨⟩
    trivial
  crossings _ _ _ _ _ := trivial
  edges {_ n _} _ _ := List.forall_mem_flatMap.2 fun m _ => allows_moveChanges n m
  wanted _ := trivial
  unreachable _ _ _ _ := trivial

end Legit

end DemandAlias
