import DemandAlias.Proofs.Run.Bound

/-!
# What passing on a message is made of

Passing on a message changes solvers, creates them, makes registrations, adds edges and
notes things, one after the other (`Updates`). The changes that others let a solver make
are of few kinds: apart from what comes with a new registration, they add rules only if
the message tells of an alias or a store, and then rules that add nothing but transitions
(`updates_handle`). The way from a message to these is taken once, for all relations of runs
that they keep to (`Passage`).
-/

namespace DemandAlias

/-! ### How much a rule may lead to -/

/-- How little a rule leads to: if it only adds what is not there yet, 1, and if it adds
    rules or lets others add rules, 0. -/
def CallRule.ease {ω : Type} : CallRule ω → Nat
  | .pop _ _ _ => 0
  | _ => 1

/-- How little a rule leads to. -/
def FieldRule.ease : FieldRule → Nat
  | .pop _ _ | .request (.aliasesAt _ _ _ _) | .request (.returnAlias _ _ _ _)
  | .request (.storesOf _ _ _) => 0
  | _ => 1

theorem CallRule.ease_le_one {ω : Type} (rule : CallRule ω) : rule.ease ≤ 1 := by
  unfold ease
  split <;> decide

theorem FieldRule.ease_le_one (rule : FieldRule) : rule.ease ≤ 1 := by
  unfold ease
  split <;> decide

/-- How little a message leads to. -/
def Message.ease : Message → Nat
  | .aliasAt _ _ _ _ _ | .storeFound _ _ _ _ => 0
  | _ => 1

/-- The change adds no rule, or one that leads to less than `k` says: none at all for `k = 2`. -/
def Change.Mild {ω : Type} (k : Nat) : Change ω → Prop
  | .callRule _ rule => k ≤ rule.ease
  | .fieldRule _ rule => k ≤ rule.ease
  | .message m => k ≤ m.ease + 1
  | _ => True

/-- The change brings in no weight but that of the way that does nothing. -/
def Change.Neutral {ω : Type} [Weight ω] : Change ω → Prop
  | .call _ w => w = one
  | x => x.Unweighted

/-- The change is no message. -/
def Change.IsSilent {ω : Type} : Change ω → Prop
  | .message _ => False
  | _ => True

section Classes

variable {ω : Type}

theorem Change.Unweighted.neutral [Weight ω] {x : Change ω} (h : x.Unweighted) : x.Neutral := by
  cases x with
  | call => exact h.elim
  | callRule _ rule => cases rule <;> exact h
  | _ => trivial

/-- What a request makes of a transition of the automaton of calls adds no rule but for new
    requests, and brings in no weight. -/
theorem CallRequest.mild_changes (p : Program) (bottom : State) (r : CallRequest)
    (t : CallTransition) : ∀ x ∈ r.changes p bottom t, (x : Change ω).Mild 2 ∧ x.Unweighted := by
  intro x hx
  cases yields_of_mem hx with
  | search | sites | deeper | returnAlias => exact ⟨trivial, trivial⟩
  | storeContext | copied => exact ⟨Nat.le_refl 2, trivial⟩

/-- What a rule of the automaton of calls makes of a transition leads to less than the rule. -/
theorem CallRule.mild_changes [Weight ω] (c : Setting ω) (bottom : State) (rule : CallRule ω)
    (t : CallTransition) (w : ω) : ∀ x ∈ rule.changes c bottom t w, x.Mild (rule.ease + 1) := by
  intro x hx
  cases yields_of_mem hx with
  | reach | step | enter | frame | leave | popMatch | unwound | unwind => trivial
  | pop => exact Nat.le_refl 1
  | request => exact (CallRequest.mild_changes c.program bottom _ t x hx).1

/-- What a rule of the automaton of fields makes of a transition leads to less than the
    rule, and brings in no weight. -/
theorem FieldRule.mild_changes (rule : FieldRule) (t : FieldTransition) :
    ∀ x ∈ rule.changes t, (x : Change ω).Mild (rule.ease + 1) ∧ x.Unweighted := by
  intro x hx
  cases yields_of_mem hx with
  | reach | step | push | below | popMatch => exact ⟨trivial, trivial⟩
  | pop => exact ⟨Nat.le_refl 1, trivial⟩
  | request h =>
    cases h with
    | allocation => exact ⟨Nat.le_refl 2, trivial⟩
    | aliasAt | returnAlias | storeFound => exact ⟨Nat.le_refl 1, trivial⟩

theorem Change.Mild.mono {k k' : Nat} {x : Change ω} (h : x.Mild k') (hk : k ≤ k') : x.Mild k := by
  cases x with
  | callRule _ _ | fieldRule _ _ | message _ => exact Nat.le_trans hk h
  | _ => trivial

/-- Nothing is below the least. -/
theorem Change.mild_zero (x : Change ω) : x.Mild 0 := by
  cases x with
  | callRule _ _ | fieldRule _ _ | message _ => exact Nat.zero_le _
  | _ => trivial

end Classes

/-- The statement that a registration says to be a store is one. -/
def Registration.Stores : Registration → Prop
  | .aliasesAt _ _ n | .storeContext _ _ n => ∃ base field, n.stmt.action = .store base field n.var
  | .storesOf _ _ _ _ | .copy _ _ _ => True

variable {sender : SolverId}

namespace Run

variable {ω : Type} [Weight ω]

theorem mild_aliasChanges (p : Program) (store : Node) (field : Field) (other : Node)
    (frames : List Statement) : ∀ x ∈ aliasChanges p store field other frames,
      (x : Change ω).Mild 1 ∧ x.Neutral ∧ x.IsSilent := by
  have hmild : (1 : Nat) ≤ 1 := Nat.le_refl 1
  exact forall_aliasChanges
    (fun _ _ _ => Move.forall_changes ⟨hmild, trivial, trivial⟩ ⟨hmild, trivial, trivial⟩)
    fun _ _ _ => ⟨⟨hmild, trivial, trivial⟩, trivial, trivial, trivial⟩

/-! ### Passing things on -/

variable [DecidableEq ω]

/-- The relation `R` holds between a run and what comes of it by changes for which `A` holds, by
    creating solvers, making registrations, adding edges and noting things. If it is `strict`,
    what a registration says to be a store has to be one. -/
structure Passage (A : Change ω → Prop) (strict : Prop) (R : Run ω → Run ω → Prop) : Prop where
  refl : ∀ r, R r r
  trans : ∀ {r r' r''}, R r r' → R r' r'' → R r r''
  change : ∀ r id (xs : List (Change ω)), (∀ x ∈ xs, A x) →
    R r (r.modifySolver id fun s => s.makeAll xs)
  create : ∀ r {q}, r.ids[q]? = none → R r (r.create q)
  register : ∀ r id {x : Registration}, (strict → x.Stores) → ∀ xs : List (Change ω),
    (∀ x ∈ xs, x.Unweighted ∧ x.IsSilent) → R r (r.register id x fun s => s.makeAll xs)
  addEdge : ∀ r site m, R r (r.addEdge site m)
  note : ∀ r subscribers resolvedSites resolvedMethods,
    R r { r with subscribers, resolvedSites, resolvedMethods }

namespace Passage

variable {A : Change ω → Prop} {strict : Prop} {R : Run ω → Run ω → Prop} {n : Nat}
variable (hR : Passage A strict R) (p : Program) (r : Run ω)
include hR

theorem foldl {α : Type} {f : Run ω → α → Run ω} {as : List α}
    (hf : ∀ r, ∀ a ∈ as, R r (f r a)) : R r (as.foldl f r) := by
  induction as generalizing r with
  | nil => exact hR.refl r
  | cons a _ ih =>
    exact hR.trans (hf r a mem_cons_self)
      (ih _ fun r b hb => hf r b (mem_cons_of_mem _ hb))

theorem withSolver (q : Query) : R r (r.withSolver q).1 := by
  rcases withSolver_cases r q with ⟨id, -, heq⟩ | ⟨hnone, heq⟩
  · rw [heq]
    exact hR.refl r
  · rw [heq]
    exact hR.create r hnone

theorem notify {k : Subscriber} (hk : strict → k.Legit n) (q : ForwardQuery) :
    R r (r.notify p k q) := by
  cases k with
  | resolve site =>
    simp only [Run.notify]
    split
    · exact hR.addEdge r site _
    · exact hR.refl r
  | fieldWrite requester store base field =>
    exact hR.trans (hR.withSolver r (.forward q)) (hR.register _ _
      (x := .aliasesAt _ requester store) (fun h => ⟨base, field, (hk h).2⟩)
      [.fieldRule .all (.request (.aliasesAt requester store base field)),
        .callRequest (.single base) (.outBy (.single base) store.stmt)
          (.callerFrames requester store field [])]
      (by simp [Change.Unweighted, Change.IsSilent]))
  | aliases => exact hR.withSolver r (.forward q)

theorem subscribe (id : SolverId) {k : Subscriber} (hk : strict → k.Legit n) :
    R r (r.subscribe p id k) :=
  hR.trans (hR.note r (r.subscribers.file id k) _ _) (hR.foldl _ fun r q _ => hR.notify p r hk q)

theorem resolve (site : Statement) : R r (r.resolve p site) := by
  rw [resolve_eq]
  split
  · exact hR.refl r
  · refine hR.trans (hR.note r r.subscribers (r.resolvedSites.insert site) r.resolvedMethods) ?_
    generalize ({ r with resolvedSites := r.resolvedSites.insert site } : Run ω) = r₁
    unfold Run.lookUp
    split
    · split
      · exact hR.addEdge r₁ site _
      · exact hR.refl r₁
    · exact hR.trans (hR.withSolver r₁ _) (hR.subscribe p _ _ (n := 0) fun _ => trivial)
    · exact hR.refl r₁

theorem findEdges (x : Crossing) : R r (r.findEdges p x) := by
  cases x with
  | into site => exact hR.resolve p r site
  | outOf method =>
    simp only [Run.findEdges]
    split
    · exact hR.refl r
    · exact hR.trans (hR.note r _ _ (r.resolvedMethods.insert method))
        (hR.foldl _ fun r site _ => hR.resolve p r site)

theorem copyOut (sender requester : SolverId) (q : State) :
    R r (r.copyOut sender requester q) := by
  unfold Run.copyOut
  split
  · exact hR.refl r
  · exact hR.register r sender (x := .copy sender requester q) (fun _ => trivial)
      [.callRule (.out q) (.request (.copy requester))]
      (by simp [Change.Unweighted, Change.IsSilent])

theorem storesOf (q : ForwardQuery) (sender : SolverId) (label : Field) (continuation : State) :
    R r ((r.withSolver (.forward q)).1.register (r.withSolver (.forward q)).2
      (.storesOf (r.withSolver (.forward q)).2 sender label continuation)
      fun s => s.onFields .all (.request (.storesOf sender label continuation))) :=
  hR.trans (hR.withSolver r (.forward q)) (hR.register _ _
    (x := .storesOf _ sender label continuation) (fun _ => trivial)
    [.fieldRule .all (.request (.storesOf sender label continuation))]
    (by simp [Change.Unweighted, Change.IsSilent]))

/-- What passing on a message does, unless it tells of a value or of an unreachable method. -/
theorem handle (c : Setting ω) {m : Message}
    (hA : ∀ x : Change ω, x.Mild (m.ease + 1) ∧ x.Neutral → x.IsSilent → A x)
    (hm : strict → sender.index < n ∧ m.Legit n) (hvalue : ∀ n l q, m ≠ .allocation n l q)
    (hreached : ∀ n, m ≠ .unreachable n) : R r (r.handle c sender m) := by
  cases m with
  | wanted x =>
    simp only [Run.handle]
    split
    · exact hR.findEdges c.program r x
    · exact hR.refl r
  | fieldWrite =>
    exact hR.trans (hR.withSolver r _) (hR.subscribe c.program _ _ hm)
  | allocation n l q => exact absurd rfl (hvalue n l q)
  | aliasAt requester store field other frames =>
    simp only [Run.handle, handleAlias_eq]
    refine hR.change r requester _ fun x hx => ?_
    obtain ⟨hmild, hneutral, hsilent⟩ := mild_aliasChanges c.program store field other frames x hx
    exact hA x ⟨hmild, hneutral⟩ hsilent
  | storeFound requester continuation store value =>
    refine hR.trans (hR.change r requester
      [.fieldRule (.out continuation) (.popMatch ⟨store.stmt, value⟩)] fun x hx => ?_)
      (hR.register _ sender (x := .storeContext sender requester ⟨store.stmt, value⟩)
        (fun h => ?_) [.callRule (.outBy (.single store.var) store.stmt)
          (.request (.storeContext requester ⟨store.stmt, value⟩))]
        (by simp [Change.Unweighted, Change.IsSilent]))
    · exact mem_singleton.1 hx ▸ hA _ ⟨Nat.le_refl 1, trivial⟩ trivial
    · obtain ⟨-, -, field, haction⟩ := hm h
      exact ⟨store.var, field, haction⟩
  | storeContext requester =>
    exact hR.trans (hR.copyOut r _ _ _) (hR.change _ requester [.call _ one]
      fun x hx => mem_singleton.1 hx ▸ hA _ ⟨trivial, rfl⟩ trivial)
  | copied requester =>
    exact hR.trans (hR.trans (hR.copyOut r _ _ _) (hR.copyOut _ _ _ _)) (hR.change _ requester
      [.call _ one] fun x hx => mem_singleton.1 hx ▸ hA _ ⟨trivial, rfl⟩ trivial)
  | unreachable n => exact absurd rfl (hreached n)

theorem start (session : Session ω) (q : Query) :
    R { graph := session.graph } (session.begin q) := by
  have hcreate := hR.withSolver ({ graph := session.graph } : Run ω) q
  cases q with
  | forward => exact hcreate
  | backward =>
    simp only [Session.begin, Session.beginBackward]
    split
    · exact hR.trans hcreate (hR.subscribe _ _ _ (n := 0) fun _ => trivial)
    · exact hcreate

end Passage

/-! ### Updates -/

/-- The run `r'` comes from `r` by changes of solvers for which `A` holds, and by creating
    solvers, making registrations, adding edges and noting things. What comes with a new
    registration may be any change without a weight. -/
inductive Updates (A : Change ω → Prop) (r : Run ω) : Run ω → Prop
  | refl : Updates A r r
  | change {r' : Run ω} (h : Updates A r r') (id : SolverId) {x : Change ω} (hx : A x) :
    Updates A r (r'.modifySolver id fun s => s.make x)
  | create {r' : Run ω} (h : Updates A r r') {q : Query} (hq : r'.ids[q]? = none) :
    Updates A r (r'.create q)
  | register {r' : Run ω} (h : Updates A r r') {x : Registration} (hx : x ∉ r'.registered)
      (hstores : x.Stores) (id : SolverId) {xs : List (Change ω)} (hxs : ∀ x ∈ xs, x.Unweighted) :
    Updates A r ({ r' with registered := r'.registered.insert x }.modifySolver id
      fun s => s.makeAll xs)
  | addEdge {r' : Run ω} (h : Updates A r r') {site : Statement} {m : MethodName}
      (hm : r'.graph.hasEdge site m = false) : Updates A r (r'.addEdge site m)
  | note {r' : Run ω} (h : Updates A r r') (allocations : Multimap SolverId ForwardQuery)
      (subscribers : Multimap SolverId Subscriber) (resolvedSites : Std.HashSet Statement)
      (resolvedMethods : Std.HashSet MethodName) (phase : Phase) :
    Updates A r { r' with allocations, subscribers, resolvedSites, resolvedMethods, phase }

section Updates

variable {A : Change ω → Prop} {r r' r'' : Run ω}
variable {size : Nat} {id : SolverId}

theorem Updates.append {A' : Change ω → Prop} (hA : ∀ x, A' x → A x) (h : Updates A r r')
    (h' : Updates A' r' r'') : Updates A r r'' := by
  induction h' with
  | refl => exact h
  | change _ id hx ih => exact ih.change id (hA _ hx)
  | create _ hq ih => exact ih.create hq
  | register _ hx hstores id hxs ih => exact ih.register hx hstores id hxs
  | addEdge _ hm ih => exact ih.addEdge hm
  | note _ allocations subscribers sites methods phase ih =>
    exact ih.note allocations subscribers sites methods phase

theorem Updates.trans (h : Updates A r r') (h' : Updates A r' r'') : Updates A r r'' :=
  h.append (fun _ hx => hx) h'

theorem Updates.mono {A' : Change ω → Prop} (hA : ∀ x, A x → A' x) (h : Updates A r r') :
    Updates A' r r' :=
  .append hA .refl h

omit [Weight ω] [DecidableEq ω] in
theorem modifySolver_eq_self {f : Solver ω → Solver ω} (h : ∀ s, r.solver? id = some s → f s = s) :
    r.modifySolver id f = r := by
  have hsame : r.solvers.modify id.index (fun s => s) = r.solvers := by
    refine Array.ext_getElem? fun i => ?_
    simp [Array.getElem?_modify]
  rw [modifySolver_congr h, modifySolver, hsame]

theorem updates_change (r : Run ω) (id : SolverId) {xs : List (Change ω)} (hxs : ∀ x ∈ xs, A x) :
    Updates A r (r.modifySolver id fun s => s.makeAll xs) := by
  induction xs generalizing r with
  | nil =>
    rw [modifySolver_eq_self fun s _ => s.makeAll_nil]
    exact .refl
  | cons x _ ih =>
    have hx : Updates A r (r.modifySolver id fun s => s.make x) :=
      Updates.refl.change id (hxs x mem_cons_self)
    have hrest := ih (r.modifySolver id fun s => s.make x) fun y hy =>
      hxs y (mem_cons_of_mem _ hy)
    rw [modifySolver_modifySolver] at hrest
    exact hx.trans hrest

theorem passage_updates : Passage A True (Updates A) where
  refl _ := .refl
  trans := .trans
  change r id _ := updates_change r id
  create _ _ hq := Updates.refl.create hq
  register r id x hstores xs hxs := by
    unfold Run.register
    split
    · exact .refl
    · next hx =>
      exact Updates.refl.register (fun hmem => hx (Std.HashSet.contains_iff_mem.2 hmem))
        (hstores trivial) id fun x hx => (hxs x hx).1
  addEdge r site m := by
    cases hm : r.graph.hasEdge site m with
    | true =>
      have heq : r.addEdge site m = r := by simp [Run.addEdge, CallGraph.addEdge, hm]
      rw [heq]
      exact .refl
    | false => exact Updates.refl.addEdge hm
  note r subscribers sites methods :=
    Updates.refl.note r.allocations subscribers sites methods r.phase

theorem updates_handleAllocation (p : Program) (r : Run ω)
    (hsubscribed : ∀ k ∈ r.subscribers.get sender, k.Legit size) (node : Node) (label : Field)
    (continuation : State) : Updates A r (r.handleAllocation p sender node label continuation) := by
  unfold Run.handleAllocation
  split
  · exact .refl
  · next q _ =>
    split
    · unfold Run.found
      split
      · exact .refl
      · have hnote : Updates A r { r with allocations := r.allocations.file sender q } :=
          Updates.refl.note _ _ _ _ _
        exact hnote.trans (passage_updates.foldl _ fun r k hk =>
          passage_updates.notify p r (fun _ => hsubscribed k hk) q)
    · exact passage_updates.storesOf r q sender label continuation

/-- What passing on a message does. -/
theorem updates_handle (c : Setting ω) (r : Run ω) (hsender : sender.index < size)
    (hsubscribed : ∀ k ∈ r.subscribers.get sender, k.Legit size) {m : Message} (hm : m.Legit size) :
    Updates (fun x => x.Mild (m.ease + 1) ∧ x.Neutral) r (r.handle c sender m) := by
  cases m with
  | allocation node label continuation =>
    exact updates_handleAllocation c.program r hsubscribed node label continuation
  | unreachable => exact Updates.refl.note _ _ _ _ _
  | _ =>
    exact passage_updates.handle r c (fun _ hx _ => hx) (fun _ => ⟨hsender, hm⟩) (by simp) (by simp)

/-- What passing on messages one after the other does. -/
theorem updates_foldl_handle [ZeroFree ω] {c : Setting ω} {k : Nat} {ms : List Message}
    (h : r.Kept c fun id' m => id' = id ∧ m ∈ ms) (hid : id.index < r.solvers.size)
    (hms : ∀ m ∈ ms, k ≤ m.ease + 1 ∧ m.Legit r.solvers.size) :
    Updates (fun x => x.Mild k ∧ x.Neutral) r (ms.foldl (fun r m => r.handle c id m) r) := by
  induction ms generalizing r with
  | nil => exact .refl
  | cons m _ ih =>
    obtain ⟨hease, hlegit⟩ := hms m mem_cons_self
    have hp := h.handle_first hid hlegit
    have hfirst := (updates_handle c r hid (fun k hk => h.subscribed hk) hlegit).mono
      fun x hx => And.imp_left (Change.Mild.mono · hease) hx
    refine hfirst.trans (ih hp.kept (Nat.lt_of_lt_of_le hid hp.grows.size_le) fun m' hm' => ?_)
    exact (hms m' (mem_cons_of_mem _ hm')).imp_right fun hm' => hm'.mono hp.grows.size_le

/-- What serving a queue does besides changing the solver that serves it. -/
theorem updates_serveSolver [ZeroFree ω] {c : Setting ω} (hc : c.weighing.ZeroFree)
    (h : r.Kept c Nothing) {s : Solver ω} (hs : r.solver? id = some s) {queue : WorkQueue} {k : Nat}
    (hms : ∀ m ∈ (s.serveQueue c r.graph queue).outbox, k ≤ m.ease + 1) :
    Updates (fun x => x.Mild k ∧ x.Neutral) (r.takeOut c id queue) (r.serveSolver c id queue) := by
  obtain ⟨hp, hlegit⟩ := h.takeOut hc hs queue rfl
  rw [serveSolver_eq hs]
  exact updates_foldl_handle hp.kept (Nat.lt_of_lt_of_le (index_lt hs) hp.grows.size_le)
    fun m hm => ⟨hms m (mem_reverse.1 hm), hlegit m hm⟩

end Updates

end Run

end DemandAlias
