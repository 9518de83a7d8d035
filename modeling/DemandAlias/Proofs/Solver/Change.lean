import DemandAlias.Proofs.Automaton.Listening
import DemandAlias.Proofs.Program.Flow
import DemandAlias.Solver.Step

/-!
# Changes of a solver

Whatever a solver does, it makes *changes*: it adds transitions, registers rules, notes
nodes and sends messages. A rule that is told of a transition makes a list of changes
that depends on the rule and the transition only (`CallRule.changes`,
`FieldRule.changes`), and a move from a node is a list of changes too
(`Move.changes`). What holds of a solver no matter what it does is then a statement
about one change (`make`), and carries over to lists of them (`makeAll`).

Which changes a rule may make, and when, is said once by a relation with a case for each
of them (`CallRule.Yields`, `FieldRule.Yields`). What is kept by all changes of rules is
shown by cases on it.
-/

namespace DemandAlias

open List (flatMap_cons)
open Solver (frameOf below maxFrames)

/-- A change of a solver. -/
inductive Change (ω : Type) where
  | call (t : CallTransition) (w : ω)
  | field (t : FieldTransition)
  | callRule (topic : Topic State Statement) (rule : CallRule ω)
  | fieldRule (topic : Topic State Field) (rule : FieldRule)
  | reachByCalls (n : Node)
  | reachByFields (n : Node)
  | message (m : Message)
  | callRequest (state : State) (topic : Topic State Statement) (r : CallRequest)
  | fieldRequest (state : State) (topic : Topic State Field) (r : FieldRequest)
  | unwind (state : State) (label : Statement) (target : Node) (frames : List Statement)

variable {ω : Type} {x : Change ω}

/-! ### The changes of rules and moves -/

namespace Move

/-- The rule that follows a move from `n` in the automaton of calls. -/
def callRule (n : Node) : Move → CallRule ω
  | .step target | .push target (.field _) | .pop target (.field _) => .step n target
  | .push target (.call site) => .push n target site
  | .pop target (.call site) => .pop n target site

/-- The rule that follows a move in the automaton of fields. -/
def fieldRule : Move → FieldRule
  | .step target | .push target (.call _) | .pop target (.call _) => .step target
  | .push target (.field f) => .push target f
  | .pop target (.field f) => .pop target f

/-- The changes that let a move from `n` be followed. -/
def changes (n : Node) (m : Move) : List (Change ω) :=
  [.callRule (.outBy (.single n.var) n.stmt) (m.callRule n),
    .fieldRule (.out (.located n)) m.fieldRule]

theorem forall_changes {P : Change ω → Prop} {n : Node} {m : Move}
    (hcall : P (.callRule (.outBy (.single n.var) n.stmt) (m.callRule n)))
    (hfield : P (.fieldRule (.out (.located n)) m.fieldRule)) : ∀ x ∈ m.changes n, P x :=
  forall_mem_cons.2 ⟨hcall, forall_mem_singleton.2 hfield⟩

end Move

/-- The changes that search the frames below `q` for aliases, in a solver with this bottom. -/
def searchChanges (bottom q : State) (requester : SolverId) (store : Node) (field : Field)
    (frames : List Statement) : List (Change ω) :=
  if q = bottom then []
  else [.callRequest q (.out q) (.callerFrames requester store field frames)]

/-- What a request makes of a transition of the automaton of calls. -/
def CallRequest.changes (p : Program) (bottom : State) (r : CallRequest) (t : CallTransition) :
    List (Change ω) :=
  match r with
  | .callerFrames requester store field frames =>
    match t.source with
    | .single _ => searchChanges bottom t.target requester store field frames
    | _ =>
      let frames := frames ++ [t.label]
      .callRequest t.target (.into t.target) (.returnSites requester store field frames) ::
        if maxFrames ≤ frames.length then []
        else searchChanges bottom t.target requester store field frames
  | .returnSites requester store field frames =>
    match t.source, frames.getLast? with
    | .single v, some site =>
      if (p.successors site).contains t.label then
        let n : State := .located ⟨t.label, v⟩
        [.fieldRequest n (.outBy n .epsilon) (.returnAlias requester store field frames)]
      else []
    | _, _ => []
  | .storeContext requester value => [.message (.storeContext requester value t.target)]
  | .copy requester => [.message (.copied requester t)]

/-- What a rule makes of a transition of weight `w` of the automaton of calls, in a
    solver with this bottom. -/
def CallRule.changes [Weight ω] (c : Setting ω) (bottom : State) (rule : CallRule ω)
    (t : CallTransition) (w : ω) : List (Change ω) :=
  match rule with
  | .reach =>
    match t.source with
    | .single v => [.reachByCalls ⟨t.label, v⟩]
    | _ => []
  | .step source target =>
    [.call (callAt target t.target) (extend w (c.weighing.step source target))]
  | .push source target site =>
    [.call (callAt target (frameOf target)) (c.weighing.enter source target),
      .call ⟨frameOf target, site, t.target⟩ w]
  | .pop source target site =>
    let w := extend w (c.weighing.leave source target)
    if t.target = bottom then [.call (callAt target t.target) w]
    else [.callRule (.outBy t.target site) (.popMatch target w)]
  | .popMatch target weight => [.call (callAt target t.target) (extend w weight)]
  | .unwind target [] => [.call (callAt target t.target) w]
  | .unwind target (site :: frames) =>
    if t.target = bottom then [.call (callAt target t.target) w]
    else [.unwind t.target site target frames]
  | .request r => r.changes c.program bottom t

/-- What a request makes of a transition of the automaton of fields. -/
def FieldRequest.changes (r : FieldRequest) (t : FieldTransition) : List (Change ω) :=
  match r, t.source with
  | .allocation node, _ => [.message (.allocation node t.label t.target)]
  | .aliasesAt requester store base field, .located n =>
    if t.label = .epsilon ∧ n.stmt = store.stmt ∧ n.var ≠ base then
      [.message (.aliasAt requester store field n [])]
    else []
  | .returnAlias requester store field frames, .located n =>
    [.message (.aliasAt requester store field n frames)]
  | .storesOf requester field continuation, .located n =>
    match n.stmt.action with
    | .store base written value =>
      if t.label = .epsilon ∧ base = n.var ∧ field.sees written then
        [.message (.storeFound requester continuation n value)]
      else []
    | _ => []
  | _, _ => []

/-- What a rule makes of a transition of the automaton of fields. -/
def FieldRule.changes (rule : FieldRule) (t : FieldTransition) : List (Change ω) :=
  match rule with
  | .reach =>
    match t.source with
    | .located n => [.reachByFields n]
    | _ => []
  | .step target => [.field (fieldAt target t.label t.target)]
  | .push target field =>
    [.field (fieldAt target field (below target field)),
      .field ⟨below target field, t.label, t.target⟩]
  | .pop target field =>
    if field.sees t.label then [.fieldRule (.out t.target) (.popMatch target)] else []
  | .popMatch target => [.field (fieldAt target t.label t.target)]
  | .request r => r.changes t

/-! ### What rules yield -/

/-- The change is one that the request makes of the transition `t`. -/
inductive CallRequest.Yields (p : Program) (bottom : State) (t : CallTransition) :
    CallRequest → Change ω → Prop
  | search (requester : SolverId) (store : Node) (field : Field) (frames : List Statement)
      {v : Local} (hsource : t.source = .single v) (hbottom : t.target ≠ bottom) :
    Yields p bottom t (.callerFrames requester store field frames)
      (.callRequest t.target (.out t.target) (.callerFrames requester store field frames))
  | sites (requester : SolverId) (store : Node) (field : Field) (frames : List Statement) :
    Yields p bottom t (.callerFrames requester store field frames)
      (.callRequest t.target (.into t.target)
        (.returnSites requester store field (frames ++ [t.label])))
  | deeper (requester : SolverId) (store : Node) (field : Field) {frames : List Statement}
      (hfew : (frames ++ [t.label]).length < maxFrames) (hbottom : t.target ≠ bottom) :
    Yields p bottom t (.callerFrames requester store field frames)
      (.callRequest t.target (.out t.target)
        (.callerFrames requester store field (frames ++ [t.label])))
  | returnAlias (requester : SolverId) (store : Node) (field : Field) (frames : List Statement)
      {v : Local} (hsource : t.source = .single v) {site : Statement}
      (hlast : frames.getLast? = some site) (hlabel : t.label ∈ p.successors site) :
    Yields p bottom t (.returnSites requester store field frames)
      (.fieldRequest (.located ⟨t.label, v⟩) (.outBy (.located ⟨t.label, v⟩) .epsilon)
        (.returnAlias requester store field frames))
  | storeContext (requester : SolverId) (value : Node) :
    Yields p bottom t (.storeContext requester value)
      (.message (.storeContext requester value t.target))
  | copied (requester : SolverId) :
    Yields p bottom t (.copy requester) (.message (.copied requester t))

theorem CallRequest.yields_of_mem {p : Program} {bottom : State} {r : CallRequest}
    {t : CallTransition} (hx : x ∈ r.changes p bottom t) :
    r.Yields p bottom t x := by
  cases r with
  | callerFrames requester store field frames =>
    simp only [changes, searchChanges] at hx
    split at hx
    · next v hsource =>
      split at hx
      · cases hx
      · next hbottom =>
        rw [mem_singleton.1 hx]
        exact .search requester store field frames hsource hbottom
    · rcases mem_cons.1 hx with rfl | hx
      · exact .sites requester store field frames
      · split at hx
        · cases hx
        · next hfew =>
          split at hx
          · cases hx
          · next hbottom =>
            rw [mem_singleton.1 hx]
            exact .deeper requester store field (Nat.lt_of_not_le hfew) hbottom
  | returnSites requester store field frames =>
    simp only [changes] at hx
    split at hx
    · next v site hsource hlast =>
      split at hx
      · next hlabel =>
        rw [mem_singleton.1 hx]
        exact .returnAlias requester store field frames hsource hlast
          (List.contains_iff_mem.1 hlabel)
      · cases hx
    · cases hx
  | storeContext requester value =>
    rw [mem_singleton.1 hx]
    exact .storeContext requester value
  | copy requester =>
    rw [mem_singleton.1 hx]
    exact .copied requester

/-- The change is one that the rule makes of the transition `t` of weight `w`. -/
inductive CallRule.Yields [Weight ω] (c : Setting ω) (bottom : State) (t : CallTransition) (w : ω) :
    CallRule ω → Change ω → Prop
  | reach {v : Local} (hsource : t.source = .single v) :
    Yields c bottom t w .reach (.reachByCalls ⟨t.label, v⟩)
  | step (source target : Node) :
    Yields c bottom t w (.step source target) (.call (callAt target t.target)
      (extend w (c.weighing.step source target)))
  | enter (source target : Node) (site : Statement) :
    Yields c bottom t w (.push source target site)
      (.call (callAt target (frameOf target)) (c.weighing.enter source target))
  | frame (source target : Node) (site : Statement) :
    Yields c bottom t w (.push source target site)
      (.call ⟨frameOf target, site, t.target⟩ w)
  | leave (source target : Node) (site : Statement) (hbottom : t.target = bottom) :
    Yields c bottom t w (.pop source target site) (.call (callAt target t.target)
      (extend w (c.weighing.leave source target)))
  | pop (source target : Node) (site : Statement) (hbottom : t.target ≠ bottom) :
    Yields c bottom t w (.pop source target site) (.callRule (.outBy t.target site)
      (.popMatch target (extend w (c.weighing.leave source target))))
  | popMatch (target : Node) (weight : ω) :
    Yields c bottom t w (.popMatch target weight)
      (.call (callAt target t.target) (extend w weight))
  | unwound (target : Node) (frames : List Statement) (hend : frames = [] ∨ t.target = bottom) :
    Yields c bottom t w (.unwind target frames) (.call (callAt target t.target) w)
  | unwind (target : Node) (site : Statement) (frames : List Statement) :
    Yields c bottom t w (.unwind target (site :: frames)) (.unwind t.target site target frames)
  | request {r : CallRequest} {x : Change ω} (h : r.Yields c.program bottom t x) :
    Yields c bottom t w (.request r) x

theorem CallRule.yields_of_mem [Weight ω] {c : Setting ω} {bottom : State} {rule : CallRule ω}
    {t : CallTransition} {w : ω} (hx : x ∈ rule.changes c bottom t w) :
    rule.Yields c bottom t w x := by
  cases rule with
  | reach =>
    simp only [changes] at hx
    split at hx
    · next v hsource =>
      rw [mem_singleton.1 hx]
      exact .reach hsource
    · cases hx
  | step source target =>
    rw [mem_singleton.1 hx]
    exact .step source target
  | push source target site =>
    rcases mem_cons.1 hx with rfl | hx
    · exact .enter source target site
    · rw [mem_singleton.1 hx]
      exact .frame source target site
  | pop source target site =>
    simp only [changes] at hx
    split at hx
    · next hbottom =>
      rw [mem_singleton.1 hx]
      exact .leave source target site hbottom
    · next hbottom =>
      rw [mem_singleton.1 hx]
      exact .pop source target site hbottom
  | popMatch target weight =>
    rw [mem_singleton.1 hx]
    exact .popMatch target weight
  | unwind target frames =>
    cases frames with
    | nil =>
      rw [mem_singleton.1 hx]
      exact .unwound target [] (.inl rfl)
    | cons site frames =>
      simp only [changes] at hx
      split at hx
      · next hbottom =>
        rw [mem_singleton.1 hx]
        exact .unwound target (site :: frames) (.inr hbottom)
      · rw [mem_singleton.1 hx]
        exact .unwind target site frames
  | request => exact .request (CallRequest.yields_of_mem hx)

/-- The change is one that the request makes of the transition `t`. -/
inductive FieldRequest.Yields (t : FieldTransition) : FieldRequest → Change ω → Prop
  | allocation (node : Node) :
    Yields t (.allocation node) (.message (.allocation node t.label t.target))
  | aliasAt (requester : SolverId) (store : Node) (base : Local) (field : Field) {n : Node}
      (hsource : t.source = .located n) (hstmt : n.stmt = store.stmt) :
    Yields t (.aliasesAt requester store base field) (.message (.aliasAt requester store field n []))
  | returnAlias (requester : SolverId) (store : Node) (field : Field) (frames : List Statement)
      {n : Node} (hsource : t.source = .located n) :
    Yields t (.returnAlias requester store field frames)
      (.message (.aliasAt requester store field n frames))
  | storeFound (requester : SolverId) (field : Field) (continuation : State) {n : Node}
      {written : Field} {value : Local} (hsource : t.source = .located n)
      (haction : n.stmt.action = .store n.var written value) :
    Yields t (.storesOf requester field continuation)
      (.message (.storeFound requester continuation n value))

theorem FieldRequest.yields_of_mem {r : FieldRequest} {t : FieldTransition} (hx : x ∈ r.changes t) :
    r.Yields t x := by
  unfold changes at hx
  split at hx
  · rw [mem_singleton.1 hx]
    exact .allocation _
  · next requester store base field n hsource =>
    split at hx
    · next hheld =>
      rw [mem_singleton.1 hx]
      exact .aliasAt requester store base field hsource hheld.2.1
    · cases hx
  · next requester store field frames n hsource =>
    rw [mem_singleton.1 hx]
    exact .returnAlias requester store field frames hsource
  · next requester field continuation n hsource =>
    split at hx
    · next base written value haction =>
      split at hx
      · next hsees =>
        rw [mem_singleton.1 hx]
        exact .storeFound requester field continuation hsource (by rw [haction, hsees.2.1])
      · cases hx
    · cases hx
  · cases hx

/-- The change is one that the rule makes of the transition `t`. -/
inductive FieldRule.Yields (t : FieldTransition) : FieldRule → Change ω → Prop
  | reach {n : Node} (hsource : t.source = .located n) : Yields t .reach (.reachByFields n)
  | step (target : Node) :
    Yields t (.step target) (.field (fieldAt target t.label t.target))
  | push (target : Node) (field : Field) :
    Yields t (.push target field)
      (.field (fieldAt target field (below target field)))
  | below (target : Node) (field : Field) :
    Yields t (.push target field) (.field ⟨below target field, t.label, t.target⟩)
  | pop (target : Node) (field : Field) (hsees : field.sees t.label = true) :
    Yields t (.pop target field) (.fieldRule (.out t.target) (.popMatch target))
  | popMatch (target : Node) :
    Yields t (.popMatch target) (.field (fieldAt target t.label t.target))
  | request {r : FieldRequest} {x : Change ω} (h : r.Yields t x) : Yields t (.request r) x

theorem FieldRule.yields_of_mem {rule : FieldRule} {t : FieldTransition} (hx : x ∈ rule.changes t) :
    rule.Yields t x := by
  cases rule with
  | reach =>
    simp only [changes] at hx
    split at hx
    · next n hsource =>
      rw [mem_singleton.1 hx]
      exact .reach hsource
    · cases hx
  | step target =>
    rw [mem_singleton.1 hx]
    exact .step target
  | push target field =>
    rcases mem_cons.1 hx with rfl | hx
    · exact .push target field
    · rw [mem_singleton.1 hx]
      exact .below target field
  | pop target field =>
    simp only [changes] at hx
    split at hx
    · next hsees =>
      rw [mem_singleton.1 hx]
      exact .pop target field hsees
    · cases hx
  | popMatch target =>
    rw [mem_singleton.1 hx]
    exact .popMatch target
  | request => exact .request (FieldRequest.yields_of_mem hx)

/-! ### Nodes and crossings -/

/-- What a node does besides leading to others. -/
def Effect.changes (n : Node) : Effect → List (Change ω)
  | .writes base field => [.message (.fieldWrite n base field)]
  | .creates => [.fieldRule (.out (.located n)) (.request (.allocation n))]

/-- What lets `n` follow an edge of a crossing. -/
def Crossing.changes (c : Setting ω) (direction : Direction) (n : Node) (x : Crossing)
    (e : CallEdge) : List (Change ω) :=
  (x.moves c.program c.scope direction n e).flatMap (Move.changes n)

/-! ### Making changes -/

namespace Solver

variable [Weight ω] [DecidableEq ω]

/-- Makes a change. -/
def make (s : Solver ω) : Change ω → Solver ω
  | .call t w => s.addCall t w
  | .field t => s.addField t
  | .callRule topic rule => s.onCalls topic rule
  | .fieldRule topic rule => s.onFields topic rule
  | .reachByCalls n => s.reachByCalls n
  | .reachByFields n => s.reachByFields n
  | .message m => s.tell m
  | .callRequest state topic r => s.requestCalls state topic r
  | .fieldRequest state topic r => s.requestFields state topic r
  | .unwind state label target frames => s.unwind state label target frames

/-- Makes some changes, one after the other. -/
def makeAll (s : Solver ω) (changes : List (Change ω)) : Solver ω := changes.foldl make s

section

variable (s : Solver ω)

@[simp] theorem makeAll_nil : s.makeAll [] = s := rfl

@[simp] theorem makeAll_cons (x : Change ω) (xs : List (Change ω)) :
    s.makeAll (x :: xs) = (s.make x).makeAll xs := rfl

theorem makeAll_append (xs ys : List (Change ω)) :
    s.makeAll (xs ++ ys) = (s.makeAll xs).makeAll ys := foldl_append

/-- No change alters where a solver starts, which way it goes and what it watches, and one
    that is no message sends none. -/
theorem frame_make (x : Change ω) :
    (s.make x).direction = s.direction ∧ (s.make x).seed = s.seed ∧
      (s.make x).watches = s.watches ∧ ((s.make x).outbox = s.outbox ∨
        ∃ m, x = .message m ∧ (s.make x).outbox = m :: s.outbox) := by
  cases x with
  | message m => exact ⟨rfl, rfl, rfl, .inr ⟨m, rfl, rfl⟩⟩
  | reachByCalls | reachByFields =>
    simp only [make, reachByCalls, reachByFields, reach]
    split
    · exact ⟨rfl, rfl, rfl, .inl rfl⟩
    · split <;> exact ⟨rfl, rfl, rfl, .inl rfl⟩
  | callRequest | fieldRequest | unwind =>
    simp only [make, requestCalls, requestFields, unwind]
    split <;> exact ⟨rfl, rfl, rfl, .inl rfl⟩
  | _ => exact ⟨rfl, rfl, rfl, .inl rfl⟩

@[simp] theorem direction_make (x : Change ω) :
    (s.make x).direction = s.direction := (frame_make s x).1

@[simp] theorem direction_makeAll (xs : List (Change ω)) :
    (s.makeAll xs).direction = s.direction := by
  induction xs generalizing s with
  | nil => rfl
  | cons _ _ ih => rw [makeAll_cons, ih, direction_make]

theorem searchBelow_eq (q : State) (requester : SolverId) (store : Node) (field : Field)
    (frames : List Statement) :
    s.searchBelow q requester store field frames =
      s.makeAll (searchChanges s.bottom q requester store field frames) := by
  unfold searchBelow searchChanges
  split <;> rfl

omit [Weight ω] [DecidableEq ω] in
@[simp] theorem bottom_requestCalls (state : State) (topic : Topic State Statement)
    (r : CallRequest) : (s.requestCalls state topic r).bottom = s.bottom := by
  unfold requestCalls
  split <;> rfl

end

theorem answerCalls_eq (p : Program) (s : Solver ω) (r : CallRequest) (t : CallTransition) :
    s.answerCalls p r t = s.makeAll (r.changes p s.bottom t) := by
  cases r with
  | callerFrames requester store field frames =>
    obtain ⟨source, label, target⟩ := t
    cases source with
    | single => exact searchBelow_eq s target requester store field frames
    | located _ | generated _ _ =>
      simp only [answerCalls, CallRequest.changes, makeAll_cons, make]
      split
      · rfl
      · rw [searchBelow_eq, bottom_requestCalls]
  | returnSites _ _ _ frames =>
    obtain ⟨source, label, target⟩ := t
    cases source with
    | single =>
      cases hlast : frames.getLast? with
      | none => simp only [answerCalls, CallRequest.changes, hlast, makeAll_nil]
      | some =>
        simp only [answerCalls, CallRequest.changes, hlast]
        split <;> rfl
    | located _ | generated _ _ => rfl
  | storeContext | copy => rfl

/-- A rule of the automaton of calls makes its changes. -/
theorem applyCallRule_eq (c : Setting ω) (s : Solver ω) (rule : CallRule ω) (t : CallTransition)
    (w : ω) : s.applyCallRule c rule t w = s.makeAll (rule.changes c s.bottom t w) := by
  cases rule with
  | reach =>
    obtain ⟨source, label, target⟩ := t
    cases source <;> rfl
  | step | push => rfl
  | pop =>
    simp only [applyCallRule, CallRule.changes]
    split <;> rfl
  | popMatch => rfl
  | unwind _ frames =>
    cases frames with
    | nil => rfl
    | cons =>
      simp only [applyCallRule, CallRule.changes]
      split <;> rfl
  | request r => exact answerCalls_eq c.program s r t

theorem answerFields_eq (s : Solver ω) (r : FieldRequest) (t : FieldTransition) :
    s.answerFields r t = s.makeAll (r.changes t) := by
  obtain ⟨source, label, target⟩ := t
  cases source with
  | located n =>
    cases r with
    | allocation => rfl
    | aliasesAt =>
      simp only [answerFields, FieldRequest.changes]
      split <;> rfl
    | returnAlias => rfl
    | storesOf =>
      cases hn : n.stmt.action with
      | store =>
        simp only [answerFields, FieldRequest.changes, hn]
        split <;> rfl
      | _ => simp only [answerFields, FieldRequest.changes, hn, makeAll_nil]
  | single _ | generated _ _ => cases r <;> rfl

/-- A rule of the automaton of fields makes its changes. -/
theorem applyFieldRule_eq (s : Solver ω) (rule : FieldRule) (t : FieldTransition) :
    s.applyFieldRule rule t = s.makeAll (rule.changes t) := by
  cases rule with
  | reach =>
    obtain ⟨source, label, target⟩ := t
    cases source <;> rfl
  | step | push => rfl
  | pop =>
    simp only [applyFieldRule, FieldRule.changes]
    split <;> rfl
  | popMatch => rfl
  | request r => exact answerFields_eq s r t

theorem follow_eq (s : Solver ω) (n : Node) (m : Move) :
    s.follow n m = s.makeAll (m.changes n) := by
  cases m with
  | step => rfl
  | push _ symbol => cases symbol <;> rfl
  | pop _ symbol => cases symbol <;> rfl

theorem followAll_eq (s : Solver ω) (n : Node) (moves : List Move) :
    s.followAll n moves = s.makeAll (moves.flatMap (Move.changes n)) := by
  induction moves generalizing s with
  | nil => rfl
  | cons m _ ih =>
    rw [flatMap_cons, makeAll_append, ← follow_eq]
    exact ih (s.follow n m)

section

variable (c : Setting ω) (s : Solver ω) (x : Crossing)

theorem cross_eq (n : Node) (e : CallEdge) :
    s.cross c x n e = s.makeAll (x.changes c s.direction n e) :=
  followAll_eq ..

theorem foldl_cross_nodes (nodes : List Node) (e : CallEdge) :
    nodes.foldl (fun s n => s.cross c x n e) s =
      s.makeAll (nodes.flatMap fun n => x.changes c s.direction n e) := by
  induction nodes generalizing s with
  | nil => rfl
  | cons _ _ ih =>
    rw [foldl_cons, ih, cross_eq, direction_makeAll, flatMap_cons, makeAll_append]

theorem foldl_cross_edges (n : Node) (edges : List CallEdge) :
    edges.foldl (fun s e => s.cross c x n e) s =
      s.makeAll (edges.flatMap fun e => x.changes c s.direction n e) := by
  induction edges generalizing s with
  | nil => rfl
  | cons _ _ ih =>
    rw [foldl_cons, ih, cross_eq, direction_makeAll, flatMap_cons, makeAll_append]

theorem foldl_cross (nodes : List Node) (edges : List CallEdge) :
    edges.foldl (fun s e => nodes.foldl (fun s n => s.cross c x n e) s) s =
      s.makeAll (edges.flatMap fun e => nodes.flatMap fun n => x.changes c s.direction n e) := by
  induction edges generalizing s with
  | nil => rfl
  | cons _ _ ih =>
    rw [foldl_cons, ih, foldl_cross_nodes, direction_makeAll, flatMap_cons, makeAll_append]

end

omit [Weight ω] [DecidableEq ω] in
theorem flowAt_eq (p : Program) (s : Solver ω) (n : Node) :
    s.flowAt p n = p.flow s.direction s.seed n := by
  unfold flowAt
  split <;> next hdirection => rw [hdirection]; rfl

end Solver

end DemandAlias
