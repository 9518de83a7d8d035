import DemandAlias.Proofs.Run.Bound
import DemandAlias.Proofs.Solver.Listing

/-!
# Runs written out

The containers of a run do not show what they hold when they are evaluated in a proof. The
*listing* of a run has the contents as plain lists and makes the same ticks
(`ListedBy.tick`). So whether and how the run for a given query comes to its end can be
found by evaluation (`convergesWithin`).
-/

namespace DemandAlias

open Std

variable {q : BackwardQuery} {n : Nat}

namespace Run

section Rel

variable {α β γ : Type} {R : α → β → Prop} {a : Option α} {b : Option β}

theorem rel_map (h : Option.Rel R a b) {f : α → α} {f' : β → β}
    (hf : ∀ {a b}, R a b → R (f a) (f' b)) : Option.Rel R (a.map f) (b.map f') := by
  cases h with
  | some h => exact .some (hf h)
  | none => exact .none

theorem map_eq_map_of_rel (h : Option.Rel R a b) {f : α → γ} {f' : β → γ}
    (hf : ∀ {a b}, R a b → f a = f' b) : a.map f = b.map f' := by
  cases h with
  | some h => exact congrArg some (hf h)
  | none => rfl

theorem all_eq_all_of_rel (h : Option.Rel R a b) {f : α → Bool} {f' : β → Bool}
    (hf : ∀ {a b}, R a b → f a = f' b) : a.all f = b.all f' := by
  cases h with
  | some h => exact hf h
  | none => rfl

end Rel

/-! ### Listings -/

/-- The contents of a run that decide what it does. -/
structure Listing (ω : Type) where
  edges : List CallEdge := []
  solvers : List (Solver.Listing ω) := []
  ids : List (Query × SolverId) := []
  found : List (SolverId × ForwardQuery) := []
  subscribers : List (SolverId × Subscriber) := []
  resolvedSites : List Statement := []
  resolvedMethods : List MethodName := []
  registered : List Registration := []
  steps : Nat := 0
  turn : Turn := {}
  phase : Phase := .running

variable {ω : Type} {f : Solver ω → Solver ω} {r : Run ω}

namespace Listing

variable [Weight ω] [DecidableEq ω]

def solver? (l : Listing ω) (id : SolverId) : Option (Solver.Listing ω) := l.solvers[id.index]?

def modifySolver (l : Listing ω) (id : SolverId) (f : Solver.Listing ω → Solver.Listing ω) :
    Listing ω :=
  { l with solvers := l.solvers.modify id.index f }

/-- Lets a solver make some changes. -/
def change (l : Listing ω) (id : SolverId) (xs : List (Change ω)) : Listing ω :=
  l.modifySolver id fun s => s.makeAll xs

def withSolver (l : Listing ω) (q : Query) : Listing ω × SolverId :=
  match valueOf? l.ids q with
  | some id => (l, id)
  | none =>
    let id : SolverId := ⟨l.solvers.length⟩
    ({ l with solvers := l.solvers ++ [.start q.direction q.node], ids := (q, id) :: l.ids }, id)

def register (l : Listing ω) (id : SolverId) (x : Registration) (xs : List (Change ω)) :
    Listing ω :=
  if x ∈ l.registered then l else { l with registered := x :: l.registered }.change id xs

/-! ### Allocations and calls -/

def addEdge (l : Listing ω) (site : Statement) (m : MethodName) : Listing ω :=
  { l with edges := addNew l.edges ⟨site, m⟩ }

def notify (p : Program) (l : Listing ω) (subscriber : Subscriber) (q : ForwardQuery) :
    Listing ω :=
  match subscriber with
  | .resolve site name =>
    match q.className?.bind fun c => p.dispatch c name with
    | some m => l.addEdge site m
    | none => l
  | .fieldWrite requester store base field =>
    let (l, id) := l.withSolver (.forward q)
    l.register id (.aliasesAt id requester store)
      [.fieldRule .all (.request (.aliasesAt requester store base field)),
        .callRequest (.single base) (.outBy (.single base) store.stmt)
          (.callerFrames requester store field [])]
  | .aliases => (l.withSolver (.forward q)).1

def subscribe (p : Program) (l : Listing ω) (id : SolverId) (subscriber : Subscriber) :
    Listing ω :=
  let l := { l with subscribers := l.subscribers ++ [(id, subscriber)] }
  (valuesOf l.found id).foldl (fun l q => l.notify p subscriber q) l

def noteFound (p : Program) (l : Listing ω) (id : SolverId) (q : ForwardQuery) : Listing ω :=
  if q ∈ valuesOf l.found id then l
  else
    let l := { l with found := l.found ++ [(id, q)] }
    (valuesOf l.subscribers id).foldl (fun l subscriber => l.notify p subscriber q) l

def resolve (p : Program) (l : Listing ω) (site : Statement) : Listing ω :=
  if site ∈ l.resolvedSites then l
  else
    let l := { l with resolvedSites := site :: l.resolvedSites }
    match site.call? with
    | some ⟨.static m, _⟩ => if p.defines m then l.addEdge site m else l
    | some ⟨.virtual receiver name, _⟩ =>
      let (l, id) := l.withSolver (.backward ⟨site, receiver⟩)
      l.subscribe p id (.resolve site name)
    | none => l

def findEdges (p : Program) (l : Listing ω) : Crossing → Listing ω
  | .into site => l.resolve p site
  | .outOf method =>
    if method ∈ l.resolvedMethods then l
    else
      let l := { l with resolvedMethods := method :: l.resolvedMethods }
      (p.callsNamed method.shortName).foldl (fun l site => l.resolve p site) l

/-! ### Messages -/

def bottom? (l : Listing ω) (id : SolverId) : Option State :=
  (l.solver? id).map fun s => .bottom s.seed

def copyOf (l : Listing ω) (sender requester : SolverId) (q : State) : State :=
  if l.bottom? sender = some q then (l.bottom? requester).getD q
  else .generated q (.imported sender)

def copyOut (l : Listing ω) (sender requester : SolverId) (q : State) : Listing ω :=
  if l.bottom? sender = some q then l
  else l.register sender (.copy sender requester q) [.callRule (.out q) (.request (.copy requester))]

def handleAllocation (p : Program) (l : Listing ω) (sender : SolverId) (node : Node)
    (label : Field) (continuation : State) : Listing ω :=
  match ForwardQuery.of node.stmt node.var with
  | .error _ => l
  | .ok q =>
    if label = .epsilon then l.noteFound p sender q
    else
      let (l, id) := l.withSolver (.forward q)
      l.register id (.storesOf id sender label continuation)
        [.fieldRule .all (.request (.storesOf sender label continuation))]

def handleAlias (p : Program) (l : Listing ω) (requester : SolverId) (store : Node)
    (field : Field) (other : Node) (frames : List Statement) : Listing ω :=
  l.change requester <|
    if frames.isEmpty then
      ((p.successors store.stmt).map fun t => .push ⟨t, other.var⟩ (.field field)).flatMap
        (Move.changes store)
    else [.fieldRule (.out (.located store)) (.push other field),
      .unwind (.single store.var) store.stmt other frames]

def handleStore (l : Listing ω) (sender requester : SolverId) (continuation : State)
    (store : Node) (value : Local) : Listing ω :=
  let n : Node := ⟨store.stmt, value⟩
  (l.change requester [.fieldRule (.out continuation) (.popMatch n)]).register sender
    (.storeContext sender requester n)
    [.callRule (.outBy (.single store.var) store.stmt) (.request (.storeContext requester n))]

def handleContext (l : Listing ω) (sender requester : SolverId) (n : Node) (context : State) :
    Listing ω :=
  let l := l.copyOut sender requester context
  l.change requester
    [.call (callAt n (l.copyOf sender requester context)) one]

def handleCopy (l : Listing ω) (sender requester : SolverId) (t : CallTransition) : Listing ω :=
  let l := (l.copyOut sender requester t.source).copyOut sender requester t.target
  l.change requester [.call ⟨l.copyOf sender requester t.source, t.label,
    l.copyOf sender requester t.target⟩ one]

def handle (c : Setting ω) (l : Listing ω) (sender : SolverId) : Message → Listing ω
  | .wanted x => if c.options.onTheFly then l.findEdges c.program x else l
  | .fieldWrite store base field =>
    let (l, id) := l.withSolver (.backward ⟨store.stmt, base⟩)
    l.subscribe c.program id (.fieldWrite sender store base field)
  | .allocation node label continuation =>
    l.handleAllocation c.program sender node label continuation
  | .aliasAt requester store field other frames =>
    l.handleAlias c.program requester store field other frames
  | .storeFound requester continuation store value =>
    l.handleStore sender requester continuation store value
  | .storeContext requester value context => l.handleContext sender requester value context
  | .copied requester t => l.handleCopy sender requester t
  | .unreachable node => { l with phase := .unsound node }

/-! ### Ticks -/

def deliver (c : Setting ω) (l : Listing ω) (id : SolverId) : Listing ω :=
  let messages := ((l.solver? id).map fun s => s.outbox.reverse).getD []
  let l := l.modifySolver id fun s => { s with outbox := [] }
  messages.foldl (fun l m => l.handle c id m) l

def stepSolver (c : Setting ω) (l : Listing ω) (id : SolverId) : Listing ω :=
  let edges := l.edges
  let l := l.modifySolver id fun s => s.step c edges
  { l with steps := l.steps + 1 }.deliver c id

def endTurn (l : Listing ω) : Listing ω :=
  { l with turn := { l.turn with solver := l.turn.solver + 1, made := 0 } }

def endRound (l : Listing ω) : Listing ω :=
  if l.turn.progressed then { l with turn := {} } else { l with phase := .converged }

def continueTurn (c : Setting ω) (elapsed : Nat) (l : Listing ω) (id : SolverId) : Listing ω :=
  let edges := l.edges
  let l := l.modifySolver id fun s => s.refresh c edges
  if (l.solver? id).all (·.isIdle) then l.endTurn
  else if c.options.isExhausted batch l.steps elapsed then { l with phase := .timedOut }
  else
    let l := { l with turn := { l.turn with made := l.turn.made + 1, progressed := true } }
    l.stepSolver c id

def tick (c : Setting ω) (elapsed : Nat) (l : Listing ω) : Listing ω :=
  if l.phase != .running then l
  else if l.solvers.length ≤ l.turn.solver then l.endRound
  else if batch ≤ l.turn.made then l.endTurn
  else l.continueTurn c elapsed ⟨l.turn.solver⟩

def advance (c : Setting ω) (elapsed : Nat) : Nat → Listing ω → Listing ω
  | 0, l => l
  | n + 1, l => if l.phase == .running then (l.tick c elapsed).advance c elapsed n else l

end Listing

theorem Listing.solver?_modifySolver (l : Listing ω) (id id' : SolverId)
    (f : Solver.Listing ω → Solver.Listing ω) :
    (l.modifySolver id f).solver? id' =
      if id = id' then (l.solver? id').map f else l.solver? id' := by
  obtain ⟨i⟩ := id
  obtain ⟨j⟩ := id'
  by_cases hij : i = j <;> simp [solver?, modifySolver, hij]

/-- The listing has the contents of the run. -/
structure ListedBy (r : Run ω) (l : Listing ω) : Prop where
  edges : r.graph.ListedBy l.edges
  size : r.solvers.size = l.solvers.length
  solver : ∀ id, Option.Rel Solver.ListedBy (r.solver? id) (l.solver? id)
  ids : ∀ q, r.ids[q]? = valueOf? l.ids q
  found : ∀ id, r.allocations.get id = valuesOf l.found id
  subscribers : ∀ id, r.subscribers.get id = valuesOf l.subscribers id
  resolvedSites : ∀ site, r.resolvedSites.contains site = true ↔ site ∈ l.resolvedSites
  resolvedMethods : ∀ m, r.resolvedMethods.contains m = true ↔ m ∈ l.resolvedMethods
  registered : ∀ x, r.registered.contains x = true ↔ x ∈ l.registered
  steps : r.steps = l.steps
  turn : r.turn = l.turn
  phase : r.phase = l.phase

namespace ListedBy

variable {l : Listing ω}

/-! ### Solvers -/

section

variable (h : r.ListedBy l)
include h

theorem modifySolver (id : SolverId) {f' : Solver.Listing ω → Solver.Listing ω}
    (hf : ∀ {s l'}, s.ListedBy l' → (f s).ListedBy (f' l')) :
    (r.modifySolver id f).ListedBy (l.modifySolver id f') :=
  { h with
    size := by rw [size_modifySolver, h.size, Listing.modifySolver, List.length_modify]
    solver := fun id' => by
      rw [solver?_modifySolver, Listing.solver?_modifySolver]
      split
      · exact rel_map (h.solver id') hf
      · exact h.solver id' }

theorem addEdge (site : Statement) (m : MethodName) :
    (r.addEdge site m).ListedBy (l.addEdge site m) :=
  { h with edges := h.edges.addEdge site m }

theorem bottom? (id : SolverId) : r.bottom? id = l.bottom? id :=
  map_eq_map_of_rel (h.solver id) fun hs => congrArg State.bottom hs.seed

theorem copyOf (sender requester : SolverId) (q : State) :
    r.copyOf sender requester q = l.copyOf sender requester q := by
  simp only [Run.copyOf, Listing.copyOf, h.bottom?]

theorem withTurn (turn : Turn) : ListedBy { r with turn } { l with turn } := { h with turn := rfl }

theorem endTurn : r.endTurn.ListedBy l.endTurn :=
  { h with turn := by rw [Run.endTurn, h.turn]; rfl }

theorem endRound : r.endRound.ListedBy l.endRound := by
  unfold Run.endRound Listing.endRound
  rw [h.turn]
  split
  · exact h.withTurn {}
  · exact { h with turn := rfl, phase := rfl }

variable [Weight ω] [DecidableEq ω]

theorem change (id : SolverId) {xs : List (Change ω)} (hf : ∀ s, f s = s.makeAll xs) :
    (r.modifySolver id f).ListedBy (l.change id xs) :=
  h.modifySolver id fun hs => hf _ ▸ hs.makeAll xs

/-- A solver for a new query goes to the end. -/
theorem create (q : Query) :
    (r.create q).ListedBy { l with
      solvers := l.solvers ++ [.start q.direction q.node]
      ids := (q, ⟨l.solvers.length⟩) :: l.ids } :=
  { h with
    size := by simp [Run.create, h.size]
    solver := fun id => by
      have hsolver := h.solver id
      rw [Listing.solver?] at hsolver
      rw [solver?_create, Listing.solver?, h.size]
      split
      · next hid =>
        rw [hid, List.getElem?_concat_length]
        exact .some (.start ..)
      · next hid =>
        rcases Nat.lt_or_gt_of_ne hid with hlt | hgt
        · rwa [List.getElem?_append_left hlt]
        · rw [List.getElem?_eq_none (by rw [length_append]; exact hgt)]
          rwa [List.getElem?_eq_none (Nat.le_of_lt hgt)] at hsolver
    ids := fun q' => by
      rw [← h.size]
      exact getElem?_insert_eq h.ids q q' _ }

theorem withSolver (q : Query) :
    (r.withSolver q).1.ListedBy (l.withSolver q).1 ∧ (r.withSolver q).2 = (l.withSolver q).2 := by
  unfold Listing.withSolver
  obtain ⟨id, hid, heq⟩ | ⟨hid, heq⟩ := withSolver_cases r q
  · rw [heq, ← h.ids q, hid]
    exact ⟨h, rfl⟩
  · rw [heq, ← h.ids q, hid]
    exact ⟨h.create q, by rw [h.size]⟩

theorem register (id : SolverId) (x : Registration) {xs : List (Change ω)}
    (hf : ∀ s, f s = s.makeAll xs) :
    (r.register id x f).ListedBy (l.register id x xs) := by
  unfold Run.register Listing.register
  simp only [h.registered]
  split
  · exact h
  · refine ListedBy.change ?_ id hf
    exact { h with registered := contains_insert_iff h.registered x }

end

variable [Weight ω] [DecidableEq ω]

/-! ### Allocations and calls -/

section

variable (p : Program) (h : r.ListedBy l)
include h

theorem notify (subscriber : Subscriber) (q : ForwardQuery) :
    (r.notify p subscriber q).ListedBy (l.notify p subscriber q) := by
  obtain ⟨hwith, hid⟩ := h.withSolver (.forward q)
  cases subscriber with
  | resolve site name =>
    unfold Run.notify Listing.notify
    dsimp only
    cases q.className?.bind fun c => p.dispatch c name with
    | some m => exact h.addEdge site m
    | none => exact h
  | fieldWrite =>
    simp only [Run.notify, Listing.notify, hid]
    exact hwith.register _ _ fun s => rfl
  | aliases => exact hwith

theorem subscribe (id : SolverId) (subscriber : Subscriber) :
    (r.subscribe p id subscriber).ListedBy (l.subscribe p id subscriber) := by
  have hfiled : ListedBy { r with subscribers := r.subscribers.file id subscriber }
      { l with subscribers := l.subscribers ++ [(id, subscriber)] } :=
    { h with subscribers := fun id' => Multimap.get_file_eq h.subscribers id id' subscriber }
  simp only [Run.subscribe, Listing.subscribe, h.found]
  exact foldl_rel (r := ListedBy) hfiled fun q _ _ _ h => h.notify p subscriber q

theorem noteFound (id : SolverId) (q : ForwardQuery) :
    (r.found p id q).ListedBy (l.noteFound p id q) := by
  have hfiled : ListedBy { r with allocations := r.allocations.file id q }
      { l with found := l.found ++ [(id, q)] } :=
    { h with found := fun id' => Multimap.get_file_eq h.found id id' q }
  unfold Run.found Listing.noteFound
  simp only [List.contains_iff_mem, h.found]
  split
  · exact h
  · rw [hfiled.subscribers]
    exact foldl_rel (r := ListedBy) hfiled fun subscriber _ _ _ h => h.notify p subscriber q

theorem resolve (site : Statement) : (r.resolve p site).ListedBy (l.resolve p site) := by
  unfold Run.resolve Listing.resolve
  simp only [h.resolvedSites]
  split
  · exact h
  · have hnoted : ListedBy { r with resolvedSites := r.resolvedSites.insert site }
        { l with resolvedSites := site :: l.resolvedSites } :=
      { h with resolvedSites := contains_insert_iff h.resolvedSites site }
    cases site.call? with
    | none => exact hnoted
    | some call =>
      obtain ⟨callee, args⟩ := call
      cases callee with
      | static m =>
        dsimp only
        split
        · exact hnoted.addEdge site m
        · exact hnoted
      | «virtual» receiver name =>
        obtain ⟨hwith, hid⟩ := hnoted.withSolver (.backward ⟨site, receiver⟩)
        simp only [hid]
        exact hwith.subscribe p _ _

theorem findEdges (x : Crossing) : (r.findEdges p x).ListedBy (l.findEdges p x) := by
  cases x with
  | into site => exact h.resolve p site
  | outOf method =>
    simp only [Run.findEdges, Listing.findEdges, h.resolvedMethods]
    split
    · exact h
    · refine foldl_rel (r := ListedBy) ?_ fun site _ _ _ h => h.resolve p site
      exact { h with resolvedMethods := contains_insert_iff h.resolvedMethods method }

end

/-! ### Messages -/

theorem copyOut (h : r.ListedBy l) (sender requester : SolverId) (q : State) :
    (r.copyOut sender requester q).ListedBy (l.copyOut sender requester q) := by
  simp only [Run.copyOut, Listing.copyOut, h.bottom?]
  split
  · exact h
  · exact h.register _ _ fun s => rfl

theorem handleAllocation (p : Program) (h : r.ListedBy l) (sender : SolverId) (node : Node)
    (label : Field) (continuation : State) :
    (r.handleAllocation p sender node label continuation).ListedBy
      (l.handleAllocation p sender node label continuation) := by
  unfold Run.handleAllocation Listing.handleAllocation
  cases ForwardQuery.of node.stmt node.var with
  | error => exact h
  | ok q =>
    dsimp only
    split
    · exact h.noteFound p sender q
    · obtain ⟨hwith, hid⟩ := h.withSolver (.forward q)
      simp only [hid]
      exact hwith.register _ _ fun s => rfl

theorem handleAlias (p : Program) (h : r.ListedBy l) (requester : SolverId) (store : Node)
    (field : Field) (other : Node) (frames : List Statement) :
    (r.handleAlias p requester store field other frames).ListedBy
      (l.handleAlias p requester store field other frames) := by
  unfold Run.handleAlias Listing.handleAlias
  split
  · exact h.change requester fun s => Solver.followAll_eq ..
  · exact h.change requester fun s => rfl

theorem handle (c : Setting ω) (h : r.ListedBy l) (sender : SolverId) (m : Message) :
    (r.handle c sender m).ListedBy (l.handle c sender m) := by
  cases m with
  | wanted x =>
    simp only [Run.handle, Listing.handle]
    split
    · exact h.findEdges c.program x
    · exact h
  | fieldWrite store base =>
    obtain ⟨hwith, hid⟩ := h.withSolver (.backward ⟨store.stmt, base⟩)
    simp only [Run.handle, Listing.handle, hid]
    exact hwith.subscribe c.program _ _
  | allocation node label continuation =>
    exact h.handleAllocation c.program sender node label continuation
  | aliasAt requester store field other frames =>
    exact h.handleAlias c.program requester store field other frames
  | storeFound requester =>
    refine ListedBy.register ?_ _ _ fun s => rfl
    exact h.change requester fun s => rfl
  | storeContext requester _ context =>
    have hcopied := h.copyOut sender requester context
    simp only [Run.handle, Run.handleContext, Listing.handle, Listing.handleContext, hcopied.copyOf]
    exact hcopied.change requester fun s => rfl
  | copied requester t =>
    have hcopied := (h.copyOut sender requester t.source).copyOut sender requester t.target
    simp only [Run.handle, Run.handleCopy, Listing.handle, Listing.handleCopy, hcopied.copyOf]
    exact hcopied.change requester fun s => rfl
  | unreachable => exact { h with phase := rfl }

/-! ### Ticks -/

variable {c : Setting ω}

variable (h : r.ListedBy l)
include h

theorem deliver (id : SolverId) : (r.deliver c id).ListedBy (l.deliver c id) := by
  have hmessages : ((r.solver? id).map fun s => s.outbox.reverse) =
      (l.solver? id).map fun s => s.outbox.reverse :=
    map_eq_map_of_rel (h.solver id) fun hs => congrArg List.reverse hs.outbox
  unfold Run.deliver Listing.deliver
  rw [hmessages]
  refine foldl_rel (r := ListedBy) ?_ fun m _ _ _ h => h.handle c id m
  exact h.modifySolver id fun hs => { hs with outbox := rfl }

theorem stepSolver (id : SolverId) : (r.stepSolver c id).ListedBy (l.stepSolver c id) := by
  have hstepped := h.modifySolver id fun hs => hs.step (c := c) h.edges
  refine ListedBy.deliver ?_ id
  exact { hstepped with steps := congrArg (· + 1) h.steps }

theorem continueTurn (elapsed : Nat) (id : SolverId) :
    (r.continueTurn c elapsed id).ListedBy (l.continueTurn c elapsed id) := by
  obtain ⟨r₁, hr₁⟩ : ∃ r₁, r₁ = r.modifySolver id fun s => s.refresh c r.graph := ⟨_, rfl⟩
  obtain ⟨l₁, hl₁⟩ : ∃ l₁, l₁ = l.modifySolver id fun s => s.refresh c l.edges := ⟨_, rfl⟩
  have hrefreshed : r₁.ListedBy l₁ := by
    rw [hr₁, hl₁]
    exact h.modifySolver id fun hs => hs.refresh h.edges
  have hidle : (r₁.solver? id).all Solver.isIdle = (l₁.solver? id).all (·.isIdle) :=
    all_eq_all_of_rel (hrefreshed.solver id) fun hs => hs.isIdle
  unfold Run.continueTurn Listing.continueTurn
  simp only [← hr₁, ← hl₁, hidle, hrefreshed.steps]
  split
  · exact hrefreshed.endTurn
  split
  · exact { hrefreshed with steps := rfl, phase := rfl }
  · refine ListedBy.stepSolver ?_ id
    exact { hrefreshed with steps := rfl, turn := by rw [hrefreshed.turn] }

/-- A tick of a run is that of its listing. -/
theorem tick (elapsed : Nat) : (r.tick c elapsed).ListedBy (l.tick c elapsed) := by
  have hrunning : (!r.isRunning) = (l.phase != .running) := by rw [isRunning, h.phase]; rfl
  unfold Run.tick Listing.tick
  rw [hrunning, h.size, h.turn]
  split
  · exact h
  split
  · exact h.endRound
  split
  · exact h.endTurn
  · exact h.continueTurn elapsed _

theorem advance (elapsed n : Nat) : (r.advance c elapsed n).ListedBy (l.advance c elapsed n) := by
  induction n generalizing r l with
  | zero => exact h
  | succ n ih =>
    unfold Run.advance Listing.advance
    rw [isRunning, h.phase]
    split
    · exact ih (h.tick elapsed)
    · exact h

end ListedBy

/-! ### Whole runs -/

/-- The listing of a run that has not begun. -/
def Listing.start (c : Setting ω) : Listing ω where
  edges := if c.options.onTheFly then [] else hierarchyEdges c.program

theorem listedBy_graph {g : CallGraph} {edges : List CallEdge} (h : g.ListedBy edges) :
    ({ graph := g } : Run ω).ListedBy { edges } where
  edges := h
  size := rfl
  solver id := .none
  ids q := HashMap.getElem?_empty
  found id := get_empty id
  subscribers id := get_empty id
  resolvedSites site := by simp
  resolvedMethods m := by simp
  registered x := by simp
  steps := rfl
  turn := rfl
  phase := rfl

theorem listedBy_start (c : Setting ω) :
    (Session.start c).graph.ListedBy (Listing.start c).edges := by
  unfold Session.start Listing.start
  dsimp only
  split
  · exact CallGraph.listedBy_empty
  · exact listedBy_classHierarchy c.program

variable [Weight ω] [DecidableEq ω]

def Listing.beginBackward (c : Setting ω) (q : BackwardQuery) : Listing ω :=
  let (l, id) := (Listing.start c).withSolver (.backward q)
  if c.options.reportAliases then l.subscribe c.program id .aliases else l

def Listing.beginForward (c : Setting ω) (q : ForwardQuery) : Listing ω :=
  ((Listing.start c).withSolver (.forward q)).1

/-- The listing of a run that begins with the edges listed. -/
def Listing.begin (c : Setting ω) (edges : List CallEdge) (q : Query) : Listing ω :=
  let (l, id) := ({ edges } : Listing ω).withSolver q
  match q with
  | .forward _ => l
  | .backward _ => if c.options.reportAliases then l.subscribe c.program id .aliases else l

theorem listedBy_begin {session : Session ω} {edges : List CallEdge}
    (hgraph : session.graph.ListedBy edges) (q : Query) :
    (session.begin q).ListedBy (.begin session.setting edges q) := by
  obtain ⟨hwith, hid⟩ := (listedBy_graph (ω := ω) hgraph).withSolver q
  cases q with
  | forward => exact hwith
  | backward q =>
    simp only [Session.begin, Session.beginBackward, Listing.begin, hid]
    split
    · exact hwith.subscribe session.setting.program _ _
    · exact hwith

variable {c : Setting ω}

theorem listedBy_beginBackward (q : BackwardQuery) :
    ((Session.start c).beginBackward q).ListedBy (.beginBackward c q) :=
  listedBy_begin (listedBy_start c) (.backward q)

theorem listedBy_beginForward (q : ForwardQuery) :
    ((Session.start c).beginForward q).ListedBy (.beginForward c q) :=
  listedBy_begin (listedBy_start c) (.forward q)

/-- A run that has come to its end does not go on. -/
theorem advance_of_le {elapsed m : Nat} (hle : n ≤ m)
    (hend : (r.advance c elapsed n).isRunning = false) :
    r.advance c elapsed m = r.advance c elapsed n := by
  induction n generalizing r m with
  | zero => cases m <;> simp_all [Run.advance]
  | succ n ih =>
    obtain ⟨m, rfl⟩ : ∃ k, m = k + 1 := ⟨m - 1, by omega⟩
    simp only [Run.advance] at hend ⊢
    split at hend
    · next hrunning =>
      rw [if_pos hrunning, if_pos hrunning]
      exact ih (Nat.le_of_succ_le_succ hle) hend
    · next hrunning => rw [if_neg hrunning, if_neg hrunning]

/-- A run whose listing converges ends like it. -/
theorem ListedBy.finish {l : Listing ω} (h : r.ListedBy l)
    (hend : (l.advance c 0 n).phase = .converged) (hle : n ≤ ample) :
    (r.finish c).ListedBy (l.advance c 0 n) := by
  have hadvance := h.advance (c := c) 0 n
  have hphase := hadvance.phase.trans hend
  rw [Run.finish, advance_of_le hle (by rw [isRunning, hphase]; rfl)]
  exact hadvance

theorem exists_endForward {s : Session ω} {q : ForwardQuery} (h : r.phase = .converged) :
    ∃ result, s.endForward q r = .ok result ∧ result.timedOut = false := by
  refine ⟨r.forwardResult s.setting q ((r.solver? ⟨0⟩).getD (Session.seedSolver q)), ?_, ?_⟩
  · simp only [Session.endForward, Session.failure?, h]
  · simp [forwardResult, isTimedOut, h]

/-- If the listing of its run converges, a backward query is answered in time with the
    allocations listed. -/
theorem exists_backwardResult (h : ((Listing.beginBackward c q).advance c 0 n).phase = .converged)
    (hle : n ≤ ample) :
    ∃ result, (Session.solveBackward (.start c) q).1 = .ok result ∧ result.timedOut = false ∧
      ∀ a, a ∈ result.allocations ↔
        a ∈ valuesOf ((Listing.beginBackward c q).advance c 0 n).found ⟨0⟩ := by
  have hfinish := (listedBy_beginBackward q).finish h hle
  have hphase := hfinish.phase.trans h
  rw [← hfinish.found]
  refine ⟨backwardResult c _ q ⟨0⟩, ?_, ?_, fun a => mem_mergeSort⟩
  · have hsetting : (Session.start c).setting = c := rfl
    simp only [Session.solveBackward, Session.endBackward, Session.failure?, hsetting, hphase]
  · simp [backwardResult, isTimedOut, hphase]

/-- If the listing of its run converges, a forward query is answered in time. -/
theorem exists_forwardResult {q : ForwardQuery}
    (h : ((Listing.beginForward c q).advance c 0 n).phase = .converged) (hle : n ≤ ample) :
    ∃ result, (Session.solveForward (.start c) q).1 = .ok result ∧ result.timedOut = false :=
  exists_endForward (((listedBy_beginForward q).finish h hle).phase.trans h)

/-- A run that can be reached has the listing. -/
theorem exists_listed (c : Setting ω) (q : Query) (n : Nat) : ∃ r, Reachable c r ∧
    r.ListedBy ((Listing.begin c (Listing.start c).edges q).advance c 0 n) :=
  ⟨_, (reachable_begin (.start c) q).advance 0 n,
    (listedBy_begin (listedBy_start c) q).advance 0 n⟩

/-- If its listing converges, a run does. -/
theorem exists_reachable (h : ((Listing.beginBackward c q).advance c 0 n).phase = .converged) :
    ∃ r, Reachable c r ∧ r.phase = .converged :=
  ⟨_, (Reachable.backward _ q).advance 0 n, ((listedBy_beginBackward q).advance 0 n).phase.trans h⟩

end Run

/-! ### An example -/

/-- The program of one method. -/
theorem Description.resolve_method {m : MethodDecl} {method : Method}
    (h : resolveMethods (context { methods := [m] } (.ofMethods [m])) [] [m] = .ok [method]) :
    resolve { methods := [m] } = .ok { classes := [], methods := [method], unreachable := [] } := by
  have hclasses : resolveClasses [] = .ok [] := rfl
  rw [resolve, h, hclasses]
  simp [bind, Except.bind, sortedBy, sortedUnique, sorted, dropRepeats]

namespace Sharing

/-- Two locals hold an object; something is written to its field by one of them and read
    by the other one. -/
def description : Description where
  methods := [{
    name := "Main.main"
    body := [.new "x" "X", .new "v" "V", .copy "w" "x", .store "x" "f" "v", .load "y" "w" "f",
      .jump 5] }]

def var (name : String) : Local := ⟨⟨"Main.main"⟩, name⟩

def actions : List Action :=
  [.assign (var "x") (.alloc ⟨"X"⟩), .assign (var "v") (.alloc ⟨"V"⟩),
    .assign (var "w") (.copy (var "x")), .store (var "x") (.named "f") (var "v"),
    .assign (var "y") (.load (var "w") (.named "f")), .jump 5]

/-- The statement at a place. -/
def stmt (index : Nat) : Statement := ⟨⟨"Main.main"⟩, index, actions[index]?.getD .nop⟩

def program : Program where
  classes := []
  methods := [.ofActions ⟨"Main.main"⟩ none [] actions]
  unreachable := []

theorem resolve_description : description.resolve = .ok program := Description.resolve_method rfl

def setting {ω : Type} (weighing : Weighing ω) : Setting ω := ⟨program, .everything, weighing, {}⟩

/-- Which values may be read? -/
def query : BackwardQuery := ⟨⟨stmt 5, var "y"⟩⟩

/-- Where the value is created that is written and read. -/
def creation : ForwardQuery := ⟨⟨stmt 1, var "v"⟩, rfl⟩

theorem converges_reach : ((Run.Listing.beginBackward (setting .reach) query).advance
    (setting .reach) 0 1000).phase = .converged := by
  decide +kernel

theorem converges_trail : ((Run.Listing.beginBackward (setting .trail) query).advance
    (setting .trail) 0 1000).phase = .converged := by
  decide +kernel

end Sharing

end DemandAlias
