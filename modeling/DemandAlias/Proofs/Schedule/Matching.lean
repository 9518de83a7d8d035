import DemandAlias.Proofs.Run.Promise

/-!
# The same, but for the numbers of solvers

Solvers are numbered in the order in which they are created, and the numbers show up in
the states that one of them has copied from another and in what is done on behalf of
others. Two runs of the same query may number their solvers differently, so what one of
them has is compared with what the other has up to a relation `R` between the numbers:
states, transitions, rules, messages and changes *match* if they are the same except for
numbers that `R` relates.

The main lemmas say that matching rules make matching changes of matching transitions
(`CallRule.Matches.changes`, `FieldRule.Matches.changes`).
-/

namespace DemandAlias

variable {t t' : CallTransition} {q q' : State} {R : SolverId → SolverId → Prop}

/-- Two relations, one of which says more. -/
abbrev Stronger (R R' : SolverId → SolverId → Prop) : Prop := ∀ ⦃id id'⦄, R id id' → R' id id'

/-- A number is related to at most one other. -/
abbrev Unambiguous (R : SolverId → SolverId → Prop) : Prop := ∀ ⦃id a b⦄, R id a → R id b → a = b

/-! ### States and transitions -/

/-- States that are the same except for the numbers of solvers. -/
inductive State.Matches (R : SolverId → SolverId → Prop) : State → State → Prop
  | single (v : Local) : Matches R (.single v) (.single v)
  | located (n : Node) : Matches R (.located n) (.located n)
  | own {q q' : State} {o : Origin} (h : Matches R q q') (ho : ∀ id, o ≠ .imported id) :
    Matches R (.generated q o) (.generated q' o)
  | imported {q q' : State} {id id' : SolverId} (h : Matches R q q') (hid : R id id') :
    Matches R (.generated q (.imported id)) (.generated q' (.imported id'))

namespace State

variable {R R' : SolverId → SolverId → Prop}

theorem Matches.mono (h : q.Matches R q') (hR : Stronger R R') :
    q.Matches R' q' := by
  induction h with
  | single v => exact .single v
  | located n => exact .located n
  | own _ ho ih => exact .own ih ho
  | imported _ hid ih => exact .imported ih (hR hid)

theorem Matches.symm (h : q.Matches R q') : q'.Matches (fun a b => R b a) q := by
  induction h with
  | single v => exact .single v
  | located n => exact .located n
  | own _ ho ih => exact .own ih ho
  | imported _ hid ih => exact .imported ih hid

/-- If a number matches only one other, so does a state. -/
theorem Matches.unique (hR : Unambiguous R) {q a b : State}
    (ha : q.Matches R a) (hb : q.Matches R b) : a = b := by
  induction ha generalizing b with
  | single | located => cases hb; rfl
  | own _ ho ih =>
    cases hb with
    | own h => rw [ih h]
    | imported => exact absurd rfl (ho _)
  | imported _ hid ih =>
    cases hb with
    | own h ho => exact absurd rfl (ho _)
    | imported h hid' => rw [ih h, hR hid hid']

/-- If numbers only match themselves, so do states. -/
theorem Matches.eq (hR : ∀ {id id'}, R id id' → id = id') (h : q.Matches R q') :
    q = q' := by
  induction h with
  | single | located => rfl
  | own _ _ ih => rw [ih]
  | imported _ hid ih => rw [ih, hR hid]

theorem matches_bottom (R : SolverId → SolverId → Prop) (n : Node) :
    (bottom n).Matches R (.bottom n) :=
  .own (.located n) fun _ => by simp

theorem matches_frameOf (R : SolverId → SolverId → Prop) (n : Node) :
    (Solver.frameOf n).Matches R (Solver.frameOf n) :=
  .own (.single n.var) fun _ => by simp

/-- Only the bottom matches the bottom. -/
theorem Matches.eq_bottom_iff (h : q.Matches R q') (n : Node) :
    q = .bottom n ↔ q' = .bottom n := by
  constructor
  · rintro rfl
    cases h with
    | own h =>
      cases h
      rfl
  · rintro rfl
    cases h with
    | own h =>
      cases h
      rfl

end State

/-- Transitions that are the same except for the numbers of solvers. -/
structure Transition.Matches (R : SolverId → SolverId → Prop) (t t' : CallTransition) : Prop where
  source : t.source.Matches R t'.source
  label : t.label = t'.label
  target : t.target.Matches R t'.target

theorem Transition.Matches.mono {R' : SolverId → SolverId → Prop} (h : Transition.Matches R t t')
    (hR : Stronger R R') : Transition.Matches R' t t' :=
  ⟨h.source.mono hR, h.label, h.target.mono hR⟩

theorem Transition.Matches.symm (h : Transition.Matches R t t') :
    Transition.Matches (fun a b => R b a) t' t :=
  ⟨h.source.symm, h.label.symm, h.target.symm⟩

theorem Transition.matches_callAt (n : Node) (h : q.Matches R q') :
    Transition.Matches R (callAt n q) (callAt n q') :=
  ⟨.single n.var, rfl, h⟩

/-- Topics that are the same except for the numbers of solvers. -/
inductive Topic.Matches (R : SolverId → SolverId → Prop) :
    Topic State Statement → Topic State Statement → Prop
  | out {q q' : State} (h : q.Matches R q') : Matches R (.out q) (.out q')
  | outBy {q q' : State} (h : q.Matches R q') (l : Statement) :
    Matches R (.outBy q l) (.outBy q' l)
  | into {q q' : State} (h : q.Matches R q') : Matches R (.into q) (.into q')
  | all : Matches R .all .all

namespace Topic

variable {R R' : SolverId → SolverId → Prop}

theorem Matches.mono {topic topic' : Topic State Statement} (h : topic.Matches R topic')
    (hR : Stronger R R') : topic.Matches R' topic' := by
  cases h with
  | out h => exact .out (h.mono hR)
  | outBy h l => exact .outBy (h.mono hR) l
  | into h => exact .into (h.mono hR)
  | all => exact .all

/-- Matching transitions belong to matching topics. -/
theorem Matches.mem_topics (hR : Unambiguous R) {topic topic' : Topic State Statement}
    (h : topic.Matches R topic') (ht : Transition.Matches R t t') (hmem : topic ∈ t.topics) :
    topic' ∈ t'.topics := by
  simp only [Transition.topics, mem_cons, not_mem_nil, or_false] at hmem ⊢
  have hsource : ∀ {q}, t.source.Matches R q → t'.source = q := ht.source.unique hR
  have htarget : ∀ {q}, t.target.Matches R q → t'.target = q := ht.target.unique hR
  rcases hmem with rfl | rfl | rfl | rfl
  · cases h with
    | out h => exact .inl (by rw [hsource h])
  · cases h with
    | outBy h => exact .inr (.inl (by rw [hsource h, ht.label]))
  · cases h with
    | into h => exact .inr (.inr (.inl (by rw [htarget h])))
  · cases h
    exact .inr (.inr (.inr rfl))

end Topic

/-! ### Requests and rules -/

/-- Requests that are the same except for the number of the solver that makes them. -/
inductive CallRequest.Matches (R : SolverId → SolverId → Prop) : CallRequest → CallRequest → Prop
  | callerFrames {id id' : SolverId} (h : R id id') (store : Node) (field : Field)
      (frames : List Statement) :
    Matches R (.callerFrames id store field frames) (.callerFrames id' store field frames)
  | returnSites {id id' : SolverId} (h : R id id') (store : Node) (field : Field)
      (frames : List Statement) :
    Matches R (.returnSites id store field frames) (.returnSites id' store field frames)
  | storeContext {id id' : SolverId} (h : R id id') (value : Node) :
    Matches R (.storeContext id value) (.storeContext id' value)
  | copy {id id' : SolverId} (h : R id id') : Matches R (.copy id) (.copy id')

/-- Requests that are the same except for the number of the solver that makes them. -/
inductive FieldRequest.Matches (R : SolverId → SolverId → Prop) :
    FieldRequest → FieldRequest → Prop
  | allocation (n : Node) : Matches R (.allocation n) (.allocation n)
  | aliasesAt {id id' : SolverId} (h : R id id') (store : Node) (base : Local) (field : Field) :
    Matches R (.aliasesAt id store base field) (.aliasesAt id' store base field)
  | returnAlias {id id' : SolverId} (h : R id id') (store : Node) (field : Field)
      (frames : List Statement) :
    Matches R (.returnAlias id store field frames) (.returnAlias id' store field frames)
  | storesOf {id id' : SolverId} (h : R id id') (field : Field) (continuation : State) :
    Matches R (.storesOf id field continuation) (.storesOf id' field continuation)

/-- Rules that are the same except for the numbers of solvers, and for weights. -/
inductive CallRule.Matches {ω : Type} (R : SolverId → SolverId → Prop) :
    CallRule ω → CallRule ω → Prop
  | reach : Matches R .reach .reach
  | step (source target : Node) : Matches R (.step source target) (.step source target)
  | push (source target : Node) (site : Statement) :
    Matches R (.push source target site) (.push source target site)
  | pop (source target : Node) (site : Statement) :
    Matches R (.pop source target site) (.pop source target site)
  | popMatch (target : Node) (w w' : ω) : Matches R (.popMatch target w) (.popMatch target w')
  | unwind (target : Node) (frames : List Statement) :
    Matches R (.unwind target frames) (.unwind target frames)
  | request {r r' : CallRequest} (h : r.Matches R r') : Matches R (.request r) (.request r')

/-- Rules that are the same except for the numbers of solvers. -/
inductive FieldRule.Matches (R : SolverId → SolverId → Prop) : FieldRule → FieldRule → Prop
  | own {rule : FieldRule} (h : ∀ r, rule ≠ .request r) : Matches R rule rule
  | request {r r' : FieldRequest} (h : r.Matches R r') : Matches R (.request r) (.request r')

/-- Messages that are the same except for the numbers of solvers. -/
inductive Message.Matches (R : SolverId → SolverId → Prop) : Message → Message → Prop
  | wanted (x : Crossing) : Matches R (.wanted x) (.wanted x)
  | fieldWrite (store : Node) (base : Local) (field : Field) :
    Matches R (.fieldWrite store base field) (.fieldWrite store base field)
  | allocation (n : Node) (label : Field) (q : State) :
    Matches R (.allocation n label q) (.allocation n label q)
  | aliasAt {id id' : SolverId} (h : R id id') (store : Node) (field : Field) (other : Node)
      (frames : List Statement) :
    Matches R (.aliasAt id store field other frames) (.aliasAt id' store field other frames)
  | storeFound {id id' : SolverId} (h : R id id') (continuation : State) (store : Node)
      (value : Local) :
    Matches R (.storeFound id continuation store value) (.storeFound id' continuation store value)
  | storeContext {id id' : SolverId} (h : R id id') (value : Node) {q q' : State}
      (hq : q.Matches R q') : Matches R (.storeContext id value q) (.storeContext id' value q')
  | copied {id id' : SolverId} (h : R id id') {t t' : CallTransition}
      (ht : Transition.Matches R t t') : Matches R (.copied id t) (.copied id' t')
  | unreachable (n : Node) : Matches R (.unreachable n) (.unreachable n)

/-- Subscribers that are the same except for the number of the solver they work for. -/
inductive Subscriber.Matches (R : SolverId → SolverId → Prop) : Subscriber → Subscriber → Prop
  | resolve (site : Statement) (name : String) : Matches R (.resolve site name) (.resolve site name)
  | fieldWrite {id id' : SolverId} (h : R id id') (store : Node) (base : Local) (field : Field) :
    Matches R (.fieldWrite id store base field) (.fieldWrite id' store base field)
  | aliases : Matches R .aliases .aliases

section Mono

variable {ω : Type} {R R' : SolverId → SolverId → Prop}

section

variable (hR : Stronger R R')
include hR

theorem CallRequest.Matches.mono {r r' : CallRequest} (h : r.Matches R r') : r.Matches R' r' := by
  cases h with
  | callerFrames h store field frames => exact .callerFrames (hR h) store field frames
  | returnSites h store field frames => exact .returnSites (hR h) store field frames
  | storeContext h value => exact .storeContext (hR h) value
  | copy h => exact .copy (hR h)

theorem FieldRequest.Matches.mono {r r' : FieldRequest} (h : r.Matches R r') : r.Matches R' r' := by
  cases h with
  | allocation n => exact .allocation n
  | aliasesAt h store base field => exact .aliasesAt (hR h) store base field
  | returnAlias h store field frames => exact .returnAlias (hR h) store field frames
  | storesOf h field continuation => exact .storesOf (hR h) field continuation

theorem CallRule.Matches.mono {rule rule' : CallRule ω} (h : rule.Matches R rule') :
    rule.Matches R' rule' := by
  cases h with
  | reach => exact .reach
  | step source target => exact .step source target
  | push source target site => exact .push source target site
  | pop source target site => exact .pop source target site
  | popMatch target w w' => exact .popMatch target w w'
  | unwind target frames => exact .unwind target frames
  | request h => exact .request (h.mono hR)

theorem FieldRule.Matches.mono {rule rule' : FieldRule} (h : rule.Matches R rule') :
    rule.Matches R' rule' := by
  cases h with
  | own h => exact .own h
  | request h => exact .request (h.mono hR)

theorem Message.Matches.mono {m m' : Message} (h : m.Matches R m') : m.Matches R' m' := by
  cases h with
  | wanted x => exact .wanted x
  | fieldWrite store base field => exact .fieldWrite store base field
  | allocation n label q => exact .allocation n label q
  | aliasAt h store field other frames => exact .aliasAt (hR h) store field other frames
  | storeFound h continuation store value => exact .storeFound (hR h) continuation store value
  | storeContext h value hq => exact .storeContext (hR h) value (hq.mono hR)
  | copied h ht => exact .copied (hR h) (ht.mono hR)
  | unreachable n => exact .unreachable n

theorem Subscriber.Matches.mono {k k' : Subscriber} (h : k.Matches R k') : k.Matches R' k' := by
  cases h with
  | resolve site name => exact .resolve site name
  | fieldWrite h store base field => exact .fieldWrite (hR h) store base field
  | aliases => exact .aliases

end

end Mono

/-! ### Changes -/

/-- Changes that are the same except for the numbers of solvers, and for weights. -/
inductive Change.Matches {ω : Type} (R : SolverId → SolverId → Prop) :
    Change ω → Change ω → Prop
  | call {t t' : CallTransition} (h : Transition.Matches R t t') (w w' : ω) :
    Matches R (.call t w) (.call t' w')
  | field (t : FieldTransition) : Matches R (.field t) (.field t)
  | callRule {topic topic' : Topic State Statement} {rule rule' : CallRule ω}
      (h : topic.Matches R topic') (hrule : rule.Matches R rule') :
    Matches R (.callRule topic rule) (.callRule topic' rule')
  | fieldRule (topic : Topic State Field) {rule rule' : FieldRule} (h : rule.Matches R rule') :
    Matches R (.fieldRule topic rule) (.fieldRule topic rule')
  | reachByCalls (n : Node) : Matches R (.reachByCalls n) (.reachByCalls n)
  | reachByFields (n : Node) : Matches R (.reachByFields n) (.reachByFields n)
  | message {m m' : Message} (h : m.Matches R m') : Matches R (.message m) (.message m')
  | callRequest (state state' : State) {topic topic' : Topic State Statement}
      {r r' : CallRequest} (h : topic.Matches R topic') (hr : r.Matches R r') :
    Matches R (.callRequest state topic r) (.callRequest state' topic' r')
  | fieldRequest (state : State) (topic : Topic State Field) {r r' : FieldRequest}
      (h : r.Matches R r') : Matches R (.fieldRequest state topic r) (.fieldRequest state topic r')
  | unwind {state state' : State} (h : state.Matches R state') (label : Statement) (target : Node)
      (frames : List Statement) :
    Matches R (.unwind state label target frames) (.unwind state' label target frames)

/-- Every change of the first list matches one of the second. -/
def Change.Covers {ω : Type} (R : SolverId → SolverId → Prop) (xs xs' : List (Change ω)) : Prop :=
  ∀ x ∈ xs, ∃ x' ∈ xs', x.Matches R x'

section Changes

variable {ω : Type} {R : SolverId → SolverId → Prop}

namespace Change

theorem covers_nil (xs' : List (Change ω)) : Covers R [] xs' := fun _ hx => nomatch hx

theorem Covers.cons {x x' : Change ω} (h : x.Matches R x') {xs xs' : List (Change ω)}
    (hxs : Covers R xs xs') : Covers R (x :: xs) (x' :: xs') := by
  intro y hy
  rcases mem_cons.1 hy with rfl | hy
  · exact ⟨x', mem_cons_self, h⟩
  · obtain ⟨y', hy', hmatch⟩ := hxs y hy
    exact ⟨y', mem_cons_of_mem _ hy', hmatch⟩

theorem covers_singleton {x x' : Change ω} (h : x.Matches R x') : Covers R [x] [x'] :=
  .cons h (covers_nil [])

end Change

open Change

/-- The changes of a move do not speak of solvers. -/
theorem Move.covers_changes (n : Node) (m : Move) :
    Covers R (m.changes n : List (Change ω)) (m.changes n) := by
  refine .cons (.callRule (.outBy (.single n.var) n.stmt) ?_)
    (covers_singleton (.fieldRule _ (.own fun r => ?_)))
  · rcases m with target | ⟨target, site | f⟩ | ⟨target, site | f⟩
    · exact .step n target
    · exact .push n target site
    · exact .step n target
    · exact .pop n target site
    · exact .step n target
  · rcases m with target | ⟨target, site | f⟩ | ⟨target, site | f⟩ <;>
      exact nofun

/-- What an alias lets a solver do does not speak of others. -/
theorem covers_aliasChanges (p : Program) (store : Node) (field : Field) (other : Node)
    (frames : List Statement) :
    Covers R (Run.aliasChanges p store field other frames : List (Change ω))
      (Run.aliasChanges p store field other frames) := by
  cases frames with
  | nil =>
    intro x hx
    obtain ⟨t, ht, hx⟩ := mem_flatMap.1 hx
    obtain ⟨x', hx', hmatch⟩ := Move.covers_changes store _ x hx
    exact ⟨x', mem_flatMap.2 ⟨t, ht, hx'⟩, hmatch⟩
  | cons frame frames =>
    exact .cons (.fieldRule _ (.own fun _ h => FieldRule.noConfusion h))
      (covers_singleton (.unwind (.single store.var) store.stmt other (frame :: frames)))

/-- What a node does does not speak of solvers. -/
theorem Effect.covers_changes (n : Node) (e : Effect) :
    Covers R (e.changes n : List (Change ω)) (e.changes n) := by
  cases e with
  | writes base field => exact covers_singleton (.message (.fieldWrite n base field))
  | creates => exact covers_singleton (.fieldRule _ (.request (.allocation n)))

section

variable {id id' : SolverId} (hid : R id id') (seed : Node) (hq : q.Matches R q') (store : Node)
  (field : Field) (frames : List Statement)
include hid seed hq store field frames

theorem covers_searchChanges :
    Covers R (searchChanges (.bottom seed) q id store field frames : List (Change ω))
      (searchChanges (.bottom seed) q' id' store field frames) := by
  unfold searchChanges
  by_cases hbottom : q = .bottom seed
  · rw [if_pos hbottom]
    exact covers_nil _
  · rw [if_neg hbottom, if_neg fun h => hbottom ((hq.eq_bottom_iff seed).2 h)]
    exact covers_singleton (.callRequest q q' (.out hq) (.callerFrames hid store field frames))

/-- The frames of the callers are looked for below any state but a local. -/
theorem covers_callerChanges : Covers R
    (.callRequest q (.into q) (.returnSites id store field frames) ::
      if Solver.maxFrames ≤ frames.length then []
      else searchChanges (.bottom seed) q id store field frames : List (Change ω))
    (.callRequest q' (.into q') (.returnSites id' store field frames) ::
      if Solver.maxFrames ≤ frames.length then []
      else searchChanges (.bottom seed) q' id' store field frames) := by
  refine .cons (.callRequest q q' (.into hq) (.returnSites hid store field frames)) ?_
  split
  · exact covers_nil _
  · exact covers_searchChanges hid seed hq store field frames

end

theorem CallRequest.Matches.changes {r r' : CallRequest} (h : r.Matches R r') (p : Program)
    (seed : Node) (ht : Transition.Matches R t t') :
    Covers R (r.changes p (.bottom seed) t : List (Change ω)) (r'.changes p (.bottom seed) t') := by
  obtain ⟨source, label, target⟩ := t
  obtain ⟨source', label', target'⟩ := t'
  obtain ⟨hsource, rfl, htarget⟩ := ht
  cases h with
  | callerFrames hid store field frames =>
    have hbelow := covers_callerChanges (ω := ω) hid seed htarget store field (frames ++ [label])
    cases hsource with
    | single => exact covers_searchChanges hid seed htarget store field frames
    | located | own | imported => exact hbelow
  | returnSites hid store field frames =>
    cases hsource with
    | single =>
      cases hlast : frames.getLast? with
      | none =>
        simp only [changes, hlast]
        exact covers_nil _
      | some =>
        simp only [changes, hlast]
        split
        · exact covers_singleton (.fieldRequest _ _ (.returnAlias hid store field frames))
        · exact covers_nil _
    | located | own | imported => exact covers_nil _
  | storeContext hid value =>
    exact covers_singleton (.message (.storeContext hid value htarget))
  | copy hid => exact covers_singleton (.message (.copied hid ⟨hsource, rfl, htarget⟩))

/-- Matching rules make matching changes of matching transitions. -/
theorem CallRule.Matches.changes [Weight ω] {rule rule' : CallRule ω} (h : rule.Matches R rule')
    (c : Setting ω) (seed : Node) (ht : Transition.Matches R t t') (w w' : ω) :
    Covers R (rule.changes c (.bottom seed) t w) (rule'.changes c (.bottom seed) t' w') := by
  have hat : ∀ n w w', Change.Matches R (.call (callAt n t.target) w : Change ω)
      (.call (callAt n t'.target) w') :=
    fun n w w' => .call (Transition.matches_callAt n ht.target) w w'
  have hbottom : ∀ {x x' y y' : Change ω}, Change.Matches R x x' → Change.Matches R y y' →
      Covers R (if t.target = .bottom seed then [x] else [y])
        (if t'.target = .bottom seed then [x'] else [y']) := by
    intro x x' y y' hx hy
    simp only [ht.target.eq_bottom_iff seed]
    split
    · exact covers_singleton hx
    · exact covers_singleton hy
  cases h with
  | reach =>
    obtain ⟨source, label, target⟩ := t
    obtain ⟨source', label', target'⟩ := t'
    obtain ⟨hsource, rfl, -⟩ := ht
    cases hsource with
    | single v => exact covers_singleton (.reachByCalls ⟨label, v⟩)
    | located | own | imported => exact covers_nil _
  | step _ target => exact covers_singleton (hat target _ _)
  | push _ target site =>
    have hframe := State.matches_frameOf R target
    have hentered : Transition.Matches R ⟨Solver.frameOf target, site, t.target⟩
        ⟨Solver.frameOf target, site, t'.target⟩ := ⟨hframe, rfl, ht.target⟩
    exact .cons (.call (Transition.matches_callAt target hframe) _ _)
      (covers_singleton (.call hentered _ _))
  | pop _ target site =>
    exact hbottom (hat target _ _) (.callRule (.outBy ht.target site) (.popMatch target _ _))
  | popMatch target => exact covers_singleton (hat target _ _)
  | unwind target frames =>
    cases frames with
    | nil => exact covers_singleton (hat target _ _)
    | cons site frames => exact hbottom (hat target _ _) (.unwind ht.target site target frames)
  | request h => exact h.changes c.program seed ht

theorem FieldRequest.Matches.changes {r r' : FieldRequest} (h : r.Matches R r')
    (t : FieldTransition) : Covers R (r.changes t : List (Change ω)) (r'.changes t) := by
  obtain ⟨source, label, target⟩ := t
  cases h with
  | allocation n => exact covers_singleton (.message (.allocation n label target))
  | aliasesAt hid store _ field =>
    cases source with
    | located n =>
      simp only [FieldRequest.changes]
      split
      · exact covers_singleton (.message (.aliasAt hid store field n []))
      · exact covers_nil _
    | single | generated => exact covers_nil _
  | returnAlias hid store field frames =>
    cases source with
    | located n => exact covers_singleton (.message (.aliasAt hid store field n frames))
    | single | generated => exact covers_nil _
  | storesOf hid _ continuation =>
    cases source with
    | located n =>
      simp only [FieldRequest.changes]
      cases n.stmt.action with
      | store _ _ value =>
        dsimp only
        split
        · exact covers_singleton (.message (.storeFound hid continuation n value))
        · exact covers_nil _
      | _ => exact covers_nil _
    | single | generated => exact covers_nil _

/-- Matching rules make matching changes of a transition. -/
theorem FieldRule.Matches.changes {rule rule' : FieldRule} (h : rule.Matches R rule')
    (t : FieldTransition) : Covers R (rule.changes t : List (Change ω)) (rule'.changes t) := by
  cases h with
  | request h => exact h.changes t
  | own h =>
    cases rule with
    | reach =>
      obtain ⟨source, label, target⟩ := t
      cases source with
      | located n => exact covers_singleton (.reachByFields n)
      | single | generated => exact covers_nil _
    | step => exact covers_singleton (.field _)
    | push _ field => exact .cons (.field _) (covers_singleton (.field _))
    | pop =>
      simp only [FieldRule.changes]
      split
      · exact covers_singleton (.fieldRule _ (.own fun _ h => FieldRule.noConfusion h))
      · exact covers_nil _
    | popMatch => exact covers_singleton (.field _)
    | request r => exact absurd rfl (h r)

end Changes

end DemandAlias
