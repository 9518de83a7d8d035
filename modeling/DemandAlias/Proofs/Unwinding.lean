import DemandAlias.Proofs.Delivery
import DemandAlias.Proofs.Run.Evaluation

/-!
# Aliases in the frames of callers

An object that is written to in a method may be held by locals of the callers as well, who see
what is written when the call returns. The solver that follows the object is asked for them: for
every chain of frames below the one of the store, it looks for locals that hold the object after
the call site at the end of the chain, and the solver that writes unwinds its own frames by the
same call sites.

No more than `Solver.maxFrames` frames are searched. When a run has converged, what is written is
found in the callers up to this depth (`Run.CallerAliasesDelivered`,
`callerAliases_of_converged`), and not below it, although there may be as many frames without
recursion (`callerAliases_missed`).
-/

namespace DemandAlias

open List (range)

variable {ω : Type} {s : Solver ω}

/-! ### Nothing is below the bottom -/

/-- No call transition leads out of the bottom. -/
def Solver.Rooted (s : Solver ω) : Prop := ∀ t ∈ s.calls.transitions, t.source ≠ s.bottom

/-- If the message copies a transition, then not one out of this state. -/
def Message.CopiesNone (bottom : State) : Message → Prop
  | .copied _ t => t.source ≠ bottom
  | _ => True

/-- No call transition leads out of this state. -/
def Bound.rooted (bottom : State) : Bound ω where
  call t := t.source ≠ bottom
  field _ := True
  callRule _ _ := True
  fieldRule _ _ := True
  message := Message.CopiesNone bottom
  watcher _ _ := True

/-- No call transition leads out of the bottom of a solver. -/
def RunBound.rooted (graph : CallGraph) : RunBound ω where
  graph
  query _ := True
  solver _ q := .rooted (.bottom q.node)
  edge _ _ := True
  allocation _ _ := True
  subscriber _ _ _ := True

section Rooted

variable {bottom : State}

theorem allows_rooted_moveChanges (n : Node) (m : Move) :
    ∀ x ∈ m.changes n, (Bound.rooted bottom : Bound ω).Allows x :=
  Move.forall_changes trivial trivial

theorem allows_rooted_callRule [Weight ω] (c : Setting ω) (seed : Node) (rule : CallRule ω)
    {t : CallTransition} (ht : t.source ≠ .bottom seed) (w : ω) :
    ∀ x ∈ rule.changes c (.bottom seed) t w, (Bound.rooted (.bottom seed)).Allows x := by
  intro x hx
  cases CallRule.yields_of_mem hx with
  | reach | pop | unwind => trivial
  | step | enter | frame | leave | popMatch | unwound => rintro ⟨⟩
  | request h =>
    cases h with
    | copied => exact ht
    | _ => trivial

theorem allows_rooted_fieldRule (rule : FieldRule) (t : FieldTransition) :
    ∀ x ∈ rule.changes t, (Bound.rooted bottom : Bound ω).Allows x := by
  intro x hx
  cases FieldRule.yields_of_mem hx with
  | request h => cases h <;> trivial
  | _ => trivial

theorem Bound.closed_rooted [Weight ω] (c : Setting ω) (g : CallGraph) (s : Solver ω) :
    (rooted s.bottom).Closed c g s where
  callRules _ _ ht w := allows_rooted_callRule c s.seed _ ht w
  fieldRules _ _ _ := allows_rooted_fieldRule _ _
  nodes {n _ _ _} _ _ _ := Solver.forall_nodeChanges (fun m _ => allows_rooted_moveChanges n m)
    (fun _ _ => trivial) fun _ _ => trivial
  crossings _ _ _ _ _ := trivial
  edges {_ n _} _ _ := List.forall_mem_flatMap.2 fun m _ => allows_rooted_moveChanges n m
  wanted _ := trivial
  unreachable _ _ _ _ := trivial

/-- What is copied stays above the bottom. -/
theorem Query.copyOf_ne_bottom (sender : SolverId) {q : Query} (q' : Query) {state : State}
    (h : state ≠ .bottom q.node) : q.copyOf sender q' state ≠ .bottom q'.node := by
  rw [copyOf, if_neg h]
  rintro ⟨⟩

theorem RunBound.passes_rooted (c : Setting ω) (graph : CallGraph) {N : Naming} {sender : SolverId}
    {q : Query} {m : Message} (hm : m.CopiesNone (.bottom q.node)) :
    (rooted graph : RunBound ω).Passes c N sender q m := by
  cases m with
  | wanted =>
    exact fun _ site _ => resolves_of_free (fun _ => trivial) (fun _ _ => trivial)
      (fun _ _ _ => trivial) c.program site
  | fieldWrite => exact ⟨trivial, trivial⟩
  | allocation =>
    exact fun _ => ⟨fun _ => trivial, fun _ => ⟨trivial, trivial⟩⟩
  | aliasAt =>
    exact fun q' _ => Run.forall_aliasChanges (fun _ _ _ => allows_rooted_moveChanges _ _)
      fun _ _ _ => ⟨trivial, trivial⟩
  | storeFound => exact ⟨fun _ _ => trivial, trivial⟩
  | storeContext =>
    refine ⟨.inr trivial, fun q' _ => ?_⟩
    rintro ⟨⟩
  | copied =>
    exact ⟨.inr trivial, .inr trivial, fun q' _ => Query.copyOf_ne_bottom sender q' hm⟩
  | unreachable => trivial

theorem RunBound.closed_rooted [Weight ω] (c : Setting ω) (graph : CallGraph) :
    (rooted graph : RunBound ω).Closed c where
  solver_mono _ _ := ⟨id, id, id, id, id, id⟩
  subscriber_mono _ _ _ h := h
  start _ := ⟨nofun, trivial, trivial, trivial⟩
  closed {N q} _ _ {g s} _ _ hseed := by
    have hb := Bound.closed_rooted c g s
    rwa [bottom, hseed] at hb
  message _ _ hm _ := passes_rooted c graph hm
  notice {N q k a size} _ _ _ _ _ := by
    cases k with
    | resolve => exact fun _ _ => .inr ⟨trivial, trivial⟩
    | fieldWrite =>
      exact ⟨trivial, forall_watchChanges trivial trivial⟩
    | aliases => trivial

end Rooted

namespace Run

variable [Weight ω] [DecidableEq ω] [ZeroFree ω] {c : Setting ω} {r : Run ω}

theorem Reachable.within_rooted (hc : c.weighing.ZeroFree) (h : Reachable c r) :
    ∃ graph, r.Within (.rooted graph) :=
  h.maintains hc (fun graph => maintained_within (RunBound.closed_rooted c graph) hc)
    fun graph _ => within_begin ⟨c, graph⟩ (RunBound.closed_rooted c graph).toPassing rfl
      (fun _ => trivial) trivial fun _ _ _ => trivial

/-- Whatever a run does, nothing is below the bottoms of its solvers. -/
theorem Reachable.rooted (hc : c.weighing.ZeroFree) (h : Reachable c r) {id : SolverId}
    (hs : r.solver? id = some s) : s.Rooted := by
  obtain ⟨graph, hw⟩ := h.within_rooted hc
  obtain ⟨q, hq⟩ := hw.named hs
  obtain ⟨hseed, -⟩ := ((h.orderly hc).ids hq).of_solver? hs
  intro t ht
  rw [bottom, hseed]
  exact (hw.solver hq hs).call ht

end Run

/-! ### Chains of frames -/

namespace Solver

/-- From the calling context `q`, the calls at these sites lead down to another one. -/
inductive Descends (s : Solver ω) : State → List Statement → State → Prop
  | nil (q : State) : Descends s q [] q
  | cons {q q₁ q₂ : State} {site : Statement} {sites : List Statement}
      (ht : ⟨q, site, q₁⟩ ∈ s.calls.transitions) (h : Descends s q₁ sites q₂) :
      Descends s q (site :: sites) q₂

theorem Descends.append {q q₁ q₂ : State} {sites sites' : List Statement}
    (h : s.Descends q sites q₁) (h' : s.Descends q₁ sites' q₂) :
    s.Descends q (sites ++ sites') q₂ := by
  induction h with
  | nil => exact h'
  | cons ht _ ih => exact .cons ht (ih h')

/-- One call after the other. -/
theorem descends_range (state : Nat → State) (site : Nat → Statement) {k : Nat}
    (h : ∀ i < k, ⟨state i, site i, state (i + 1)⟩ ∈ s.calls.transitions) :
    s.Descends (state 0) ((range k).map site) (state k) := by
  induction k with
  | zero => exact .nil _
  | succ k ih =>
    rw [List.range_succ, map_append]
    refine (ih fun i hi => h i (Nat.lt_succ_of_lt hi)).append ?_
    exact .cons (h k (Nat.lt_succ_self k)) (.nil _)

/-- A context that calls lead down from is above the bottom. -/
theorem Rooted.ne_bottom (h : s.Rooted) {q q' : State} {site : Statement} {sites : List Statement}
    (hd : s.Descends q (site :: sites) q') : q ≠ s.bottom := by
  cases hd with
  | cons ht => exact h _ ht

end Solver

namespace Run

open Solver

section Finished

variable [Weight ω] {c : Setting ω} {g : CallGraph} {sent : Message → Prop}
  {requester : SolverId} {store other : Node} {field : Field}
variable {q : State} {site : Statement} {sites : List Statement}

omit [Weight ω] in
/-- What is searched from a frame: the locals after its call site, and the frames below. -/
theorem changes_callerFrames (p : Program) (bottom : State) (hq : q.var? = none) (site : Statement)
    (q' : State) (frames : List Statement) :
    (CallRequest.callerFrames requester store field frames).changes p bottom ⟨q, site, q'⟩ =
      (.callRequest q' (.into q') (.returnSites requester store field (frames ++ [site])) :
        Change ω) ::
      if maxFrames ≤ (frames ++ [site]).length then []
      else searchChanges bottom q' requester store field (frames ++ [site]) := by
  cases q with
  | single => cases hq
  | _ => rfl

variable (h : Finished c g sent s) (hrooted : s.Rooted)
include h hrooted

/-- The frames below a context that is searched are searched, as long as there are not too many:
    it is asked for the locals after the last call site. -/
theorem Finished.returnSites {q' : State} {frames : List Statement}
    (hk : s.calls.Listens (.out q) (.request (.callerFrames requester store field frames)))
    (hq : q.var? = none) (hd : s.Descends q (site :: sites) q')
    (hfew : (frames ++ site :: sites).length ≤ maxFrames) :
    s.calls.Listens (.into q')
      (.request (.returnSites requester store field (frames ++ site :: sites))) := by
  induction sites generalizing q frames site with
  | nil =>
    cases hd with
    | cons ht hd =>
      cases hd
      obtain ⟨w, -, hmade⟩ := h.call hk ht (Transition.out_mem_topics _)
      simp only [CallRule.changes, changes_callerFrames c.program s.bottom hq] at hmade
      exact h.sound.callRequests (hmade _ mem_cons_self)
  | cons _ _ ih =>
    cases hd with
    | @cons _ q₁ _ _ _ ht hd =>
      obtain ⟨w, -, hmade⟩ := h.call hk ht (Transition.out_mem_topics _)
      have htarget : q₁.var? = none := h.sound.targets ht
      -- There is a frame below the next one, which so is none too many, and above the bottom.
      have hmore : ¬maxFrames ≤ (frames ++ [site]).length := by
        simp only [length_append, length_cons, List.length_nil] at hfew ⊢
        omega
      simp only [CallRule.changes, changes_callerFrames c.program s.bottom hq, if_neg hmore,
        searchChanges, if_neg (hrooted.ne_bottom hd)] at hmade
      have hk₁ := h.sound.callRequests (hmade _ (mem_cons_of_mem _ mem_cons_self))
      simp only [CallRequest.topic, htarget, Option.isSome_none, Bool.false_eq_true,
        if_false] at hk₁
      have hlistens := ih hk₁ htarget hd (by simpa using hfew)
      simpa using hlistens

/-- The frames below the store are unwound by the call sites. -/
theorem Finished.unwinds {q' : State} (hk : s.calls.Listens (.outBy q site) (.unwind other sites))
    (hd : s.Descends q (site :: sites) q') : callAt other q' ∈ s.calls.transitions := by
  induction sites generalizing q site with
  | nil =>
    cases hd with
    | cons ht hd =>
      cases hd
      obtain ⟨w, -, hmade⟩ := h.call hk ht (Transition.outBy_mem_topics _)
      exact hmade _ mem_cons_self
  | cons _ _ ih =>
    cases hd with
    | @cons _ _ _ _ _ ht hd =>
      obtain ⟨w, -, hmade⟩ := h.call hk ht (Transition.outBy_mem_topics _)
      simp only [CallRule.changes, if_neg (hrooted.ne_bottom hd)] at hmade
      exact ih (h.sound.unwinding (hmade _ mem_cons_self)) hd

/-- A local that holds the object after the last call site is told to the solver that writes. -/
theorem Finished.aliasAt {base y : Local}
    (hasked : (.single base, .callerFrames requester store field []) ∈ s.callRequests)
    {t : Statement} (hlast : sites.getLast? = some site) (hfew : sites.length ≤ maxFrames)
    {e₁ e p : State} (hbase : callAt ⟨store.stmt, base⟩ e₁ ∈ s.calls.transitions)
    (hd : s.Descends e₁ sites e) (ht : t ∈ c.program.successors site)
    (hcall : callAt ⟨t, y⟩ e ∈ s.calls.transitions)
    (hfield : fieldAt ⟨t, y⟩ .epsilon p ∈ s.fields.transitions) :
    s.Made sent (.message (.aliasAt requester store field ⟨t, y⟩ sites)) := by
  have hne : sites ≠ [] := by
    rintro rfl
    cases hlast
  obtain ⟨frame, frames, rfl⟩ := List.exists_cons_of_ne_nil hne
  -- The context of the store is searched, as it is above the bottom.
  have hsearched : s.calls.Listens (.out e₁)
      (.request (.callerFrames requester store field [])) := by
    have hk := h.sound.callRequests hasked
    obtain ⟨w, -, hmade⟩ := h.call hk hbase (Transition.outBy_mem_topics _)
    have htarget : e₁.var? = none := h.sound.targets hbase
    have hne : e₁ ≠ s.bottom := hrooted.ne_bottom hd
    simp only [CallRule.changes, CallRequest.changes, callAt, searchChanges, hne, if_false] at hmade
    have hk₁ := h.sound.callRequests (hmade _ mem_cons_self)
    simpa only [CallRequest.topic, htarget, Option.isSome_none, Bool.false_eq_true, if_false]
      using hk₁
  have hsites := h.returnSites hrooted hsearched (h.sound.targets hbase) hd hfew
  obtain ⟨w, -, hmade⟩ := h.call hsites hcall (Transition.into_mem_topics _)
  simp only [CallRule.changes, CallRequest.changes, callAt, List.nil_append, hlast,
    List.contains_iff_mem.2 ht, if_true] at hmade
  have hk := h.sound.fieldRequests (hmade _ mem_cons_self)
  exact h.field hk hfield (Transition.outBy_mem_topics _) _ mem_cons_self

end Finished

/-! ### What is delivered -/

/-- A solver that follows a value to a store `base.field = var` continues from the locals of
    callers that hold the object of `base`, down to `limit` frames: if the solver that follows the
    object has it in `y` after the last of some call sites that lead down from the store, then
    the solver has the value in the field of `y` there, in every calling context to which the same
    call sites lead down from the store. -/
def CallerAliasesDelivered (c : Setting ω) (r : Run ω) (limit : Nat) : Prop :=
  ∀ id s, r.solver? id = some s → s.direction = .forward →
    ∀ store base field, s.Processed store → c.scope.excludes store.stmt.method = false →
      store.stmt.action = .store base field store.var →
    ∀ finder q follower s', r.ids[Query.backward ⟨⟨store.stmt, base⟩⟩]? = some finder →
      q ∈ r.allocations.get finder → r.ids[Query.forward q]? = some follower →
      r.solver? follower = some s' →
    ∀ sites site t y, sites.getLast? = some site → sites.length ≤ limit →
      t ∈ c.program.successors site →
    ∀ e₁ e p, callAt ⟨store.stmt, base⟩ e₁ ∈ s'.calls.transitions → s'.Descends e₁ sites e →
      callAt ⟨t, y⟩ e ∈ s'.calls.transitions →
      fieldAt ⟨t, y⟩ .epsilon p ∈ s'.fields.transitions →
    ∀ d₁ d, callAt store d₁ ∈ s.calls.transitions → s.Descends d₁ sites d →
      callAt ⟨t, y⟩ d ∈ s.calls.transitions ∧
        fieldAt ⟨t, y⟩ field (below ⟨t, y⟩ field) ∈ s.fields.transitions ∧
        ∀ l p, fieldAt store l p ∈ s.fields.transitions →
          ⟨below ⟨t, y⟩ field, l, p⟩ ∈ s.fields.transitions

variable {c : Setting ω} {r : Run ω}

theorem CallerAliasesDelivered.mono {limit limit' : Nat} (hle : limit' ≤ limit)
    (h : r.CallerAliasesDelivered c limit) : r.CallerAliasesDelivered c limit' := by
  intro id s hs hforward store base field hstore hincluded haction finder q follower s' hfinder hq
    hfollower hs' sites site t y hlast hfew
  exact h id s hs hforward store base field hstore hincluded haction finder q follower s' hfinder hq
    hfollower hs' sites site t y hlast (Nat.le_trans hfew hle)

variable [Weight ω] [DecidableEq ω]

theorem Complete.callerAliasesDelivered (h : r.Complete c)
    (hrooted : ∀ {id s}, r.solver? id = some s → s.Rooted) :
    r.CallerAliasesDelivered c maxFrames := by
  intro id s hs hforward store base field hstore hincluded haction finder q follower s' hfinder hq
    hfollower hs' sites site t y hlast hfew ht e₁ e p hbase hd hcall hfield d₁ d hvalue hd'
  -- The solver of the object is asked for the frames below the store, and it tells of the local.
  obtain ⟨finder₁, hfinder₁, hasked⟩ := h.aliases_asked hs hforward hstore.1 hincluded haction
  cases hfinder.symm.trans hfinder₁
  obtain ⟨follower₁, hfollower₁, s₁, hs₁, -, hrequest⟩ := hasked q hq
  cases hfollower.symm.trans hfollower₁
  cases hs'.symm.trans hs₁
  have hfinished := h.finished hs
  have hmessage := (h.finished hs').aliasAt (hrooted hs') hrequest hlast hfew hbase hd ht hcall
    hfield
  have hmade := Has.of_solver? (h.handled hs' hmessage) hs
  have hne : sites ≠ [] := by
    rintro rfl
    cases hlast
  obtain ⟨frame, frames, rfl⟩ := List.exists_cons_of_ne_nil hne
  -- The message makes the solver of the value push the field and unwind its own frames.
  have hpushes : s.fields.Listens (.out (.located store)) (.push ⟨t, y⟩ field) :=
    hmade _ mem_cons_self
  have hunwinds := hfinished.sound.unwinding
    (hmade _ (mem_cons_of_mem _ mem_cons_self))
  obtain ⟨-, l, p₁, hp₁⟩ := (hfinished.reached_iff store).1 hstore.1
  exact ⟨hfinished.unwinds (hrooted hs) hunwinds (.cons hvalue hd'),
    (hfinished.pushesField hpushes hp₁).1, fun l p hp => (hfinished.pushesField hpushes hp).2⟩

/-- In a converged run, what is written is found in as many frames of callers as are searched,
    whether reachability is asked for or trails. -/
theorem callerAliases_of_converged (p : Program) (scope : Scope) (options : Options) :
    (∀ r : Run Reach, Reachable ⟨p, scope, .reach, options⟩ r → r.phase = .converged →
      r.CallerAliasesDelivered ⟨p, scope, .reach, options⟩ maxFrames) ∧
    ∀ r : Run Trail, Reachable ⟨p, scope, .trail, options⟩ r → r.phase = .converged →
      r.CallerAliasesDelivered ⟨p, scope, .trail, options⟩ maxFrames := by
  refine ⟨fun r h hconverged => ?_, fun r h hconverged => ?_⟩
  · have hcomplete := h.complete zeroFree_reach hconverged
    exact hcomplete.callerAliasesDelivered (h.rooted zeroFree_reach)
  · have hcomplete := h.complete zeroFree_trail hconverged
    exact hcomplete.callerAliasesDelivered (h.rooted zeroFree_trail)

end Run

/-! ### Calls without recursion -/

namespace CallGraph

/-- A method has a call site at which another one is called. -/
def Calls (g : CallGraph) (m m' : MethodName) : Prop :=
  ∃ site : Statement, site.method = m ∧ m' ∈ g.callees site

/-- No method calls itself, whether directly or through others. -/
def IsAcyclic (g : CallGraph) : Prop := ∀ m, ¬Relation.TransGen g.Calls m m

/-- There is no recursion if methods only call methods of lower rank. -/
theorem isAcyclic_of_rank {g : CallGraph} (rank : MethodName → Nat)
    (h : ∀ {site : Statement} {m}, m ∈ g.callees site → rank m < rank site.method) :
    g.IsAcyclic := by
  have hlower : ∀ {m m'}, Relation.TransGen g.Calls m m' → rank m' < rank m := by
    intro m m' hcalls
    induction hcalls with
    | single hcall =>
      obtain ⟨site, rfl, hm⟩ := hcall
      exact h hm
    | tail _ hcall ih =>
      obtain ⟨site, rfl, hm⟩ := hcall
      exact Nat.lt_trans (h hm) ih
  exact fun m hm => Nat.lt_irrefl _ (hlower hm)

end CallGraph

/-! ### An example -/

namespace Nesting

open Solver

def names : List String :=
  ["A.m", "B.m", "C.m", "D.m", "E.m", "F.m", "G.m", "H.m", "I.m"]

/-- A box is put into itself by the innermost of nested calls, whose results overwrite the locals it
    is passed in, and what is in it is taken through another local. -/
def description (depth : Nat) : Description where
  methods := (range depth).map (fun i =>
    { name := names.getD i ""
      params := ["b"]
      body := if i = 0 then [.store "b" "f" "b"]
        else [.call (some "b") (names.getD (i - 1) "") [.var "b"]] }) ++
    [{ name := "Main.main"
       body := [.new "x" "X", .copy "y" "x",
         .call (some "x") (names.getD (depth - 1) "") [.var "x"], .load "t" "y" "f"] }]

def name (i : Nat) : MethodName := ⟨names.getD i ""⟩

/-- The parameter of a method on the way to the store. -/
def param (i : Nat) : Local := ⟨name i, "b"⟩

def var (s : String) : Local := ⟨⟨"Main.main"⟩, s⟩

/-- What the methods do on the way to the store. -/
def innerActions (i : Nat) : List Action :=
  [if i = 0 then .store (param i) (.named "f") (param i)
    else .assign (param i) (.call ⟨.static (name (i - 1)), [.var (param i)]⟩), .ret none]

def actions (depth : Nat) : List Action :=
  [.assign (var "x") (.alloc ⟨"X"⟩), .assign (var "y") (.copy (var "x")),
    .assign (var "x") (.call ⟨.static (name (depth - 1)), [.var (var "x")]⟩),
    .assign (var "t") (.load (var "y") (.named "f")), .ret none]

def program (depth : Nat) : Program where
  classes := []
  methods := (range depth).map (fun i =>
    .ofActions (name i) none [param i] (innerActions i)) ++
    [.ofActions ⟨"Main.main"⟩ none [] (actions depth)]
  unreachable := []

theorem resolve_description : (description 9).resolve = .ok (program 9) :=
  Description.resolve_inOrder rfl rfl rfl .nil (by decide)

/-- The statement at a place of the main method. -/
def stmt (depth index : Nat) : Statement :=
  ⟨⟨"Main.main"⟩, index, (actions depth)[index]?.getD .nop⟩

/-- The first statement of a method on the way. -/
def first (i : Nat) : Statement := ⟨name i, 0, (innerActions i)[0]?.getD .nop⟩

/-- The call sites, from the innermost to the one of the main method. -/
def site (depth i : Nat) : Statement := if i + 1 < depth then first (i + 1) else stmt depth 2

def setting (depth : Nat) : Setting Reach :=
  ⟨program depth, .everything, .reach, { timeout := none }⟩

def box (depth : Nat) : ForwardQuery := ⟨⟨stmt depth 0, var "x"⟩, rfl⟩

/-- The calling contexts of the box, from the innermost down to the bottom. -/
def context (depth i : Nat) : State :=
  if i < depth then frameOf ⟨first i, param i⟩ else .bottom (box depth).node

/-- Where the box is put into itself. -/
def store : Node := ⟨first 0, param 0⟩

/-- Where the other local holds the box. -/
def other (depth : Nat) : Node := ⟨stmt depth 3, var "y"⟩

/-- The run that follows the box. -/
def listing (depth : Nat) : Run.Listing Reach :=
  (Run.Listing.beginForward (setting depth) (box depth)).advance (setting depth) 0 1000

/-- The box is followed to the store, in a context from which the call sites lead down to the
    main method, and it is in the other local after the calls. -/
def Reaches (depth : Nat) (s : Solver.Listing Reach) : Prop :=
  s.direction = .forward ∧ store ∈ s.reached ∧ s.pending = [] ∧
    callAt store (context depth 0) ∈ s.calls.transitions ∧
    (∀ i < depth, ⟨context depth i, site depth i, context depth (i + 1)⟩ ∈ s.calls.transitions) ∧
    callAt (other depth) (context depth depth) ∈ s.calls.transitions ∧
    fieldAt (other depth) .epsilon (.bottom (box depth).node) ∈ s.fields.transitions

instance (depth : Nat) (s : Solver.Listing Reach) : Decidable (Reaches depth s) :=
  inferInstanceAs (Decidable (_ ∧ _))

/-- The box is found in the field of the other local. -/
def IsFound (depth : Nat) (s : Solver.Listing Reach) : Prop :=
  fieldAt (other depth) (.named "f") (below (other depth) (.named "f")) ∈ s.fields.transitions

instance (depth : Nat) (s : Solver.Listing Reach) : Decidable (IsFound depth s) :=
  inferInstanceAs (Decidable (_ ∈ _))

/-- The run converges, and what is stored to is found to be the box. -/
def Exhibits (depth : Nat) (l : Run.Listing Reach) : Prop :=
  l.phase = .converged ∧ valueOf? l.ids (.backward ⟨store⟩) = some ⟨1⟩ ∧
    valueOf? l.ids (.forward (box depth)) = some ⟨0⟩ ∧ box depth ∈ valuesOf l.found ⟨1⟩ ∧
    ((range depth).map (site depth)).getLast? = some (stmt depth 2) ∧
    (other depth).stmt ∈ (program depth).successors (stmt depth 2) ∧
    (l.solver? ⟨0⟩).any fun s => Reaches depth s

instance (depth : Nat) (l : Run.Listing Reach) : Decidable (Exhibits depth l) :=
  inferInstanceAs (Decidable (_ ∧ _))

/-- If what is written is found in this many frames, it is found through the other local. -/
theorem found_of_delivered {depth : Nat} (h : Exhibits depth (listing depth)) {r : Run Reach}
    (hr : r.ListedBy (listing depth))
    (hdelivered : r.CallerAliasesDelivered (setting depth) depth) :
    r.Has ⟨0⟩ fun s => fieldAt (other depth) (.named "f") (below (other depth) (.named "f")) ∈
      s.fields.transitions := by
  obtain ⟨-, hfinder, hfollower, hfound, hlast, hnext, hreaches⟩ := h
  obtain ⟨s, l, hs, hl, hP⟩ := hr.exists_solver hreaches
  obtain ⟨hforward, hreached, hpending, hstart, hsites, hcall, hfield⟩ := of_decide_eq_true hP
  have hprocessed : s.Processed store := by
    refine ⟨?_, ?_⟩
    · show store ∈ s.reached.toList
      rw [hl.reached]
      exact hreached
    · rw [hl.pending, hpending]
      exact not_mem_nil
  rw [← hl.calls.transitions] at hstart hcall
  rw [← hl.fields.transitions] at hfield
  rw [← hr.found] at hfound
  have hdescends : s.Descends (context depth 0) ((range depth).map (site depth))
      (context depth depth) := by
    refine descends_range _ _ fun i hi => ?_
    rw [hl.calls.transitions]
    exact hsites i hi
  have hfew : ((range depth).map (site depth)).length ≤ depth := by simp
  exact ⟨s, hs, (hdelivered ⟨0⟩ s hs (hl.direction.trans hforward) store (param 0) (.named "f")
    hprocessed rfl rfl ⟨1⟩ (box depth) ⟨0⟩ s ((hr.ids _).trans hfinder) hfound
    ((hr.ids _).trans hfollower) hs _ _ _ _ hlast hfew hnext _ _ _ hstart hdescends hcall hfield
    _ _ hstart hdescends).2.1⟩

theorem exists_run {depth : Nat} (h : Exhibits depth (listing depth)) :
    ∃ r, Run.Reachable (setting depth) r ∧ r.phase = .converged ∧ r.ListedBy (listing depth) := by
  obtain ⟨r, hr, hlisted⟩ := Run.exists_listed (setting depth) (.forward (box depth)) 1000
  exact ⟨r, hr, hlisted.phase.trans h.1, hlisted⟩

theorem exhibits_one : Exhibits 1 (listing 1) := by
  decide +kernel

theorem exhibits_nine : Exhibits 9 (listing 9) ∧
    ((listing 9).solver? ⟨0⟩).any fun s => ¬IsFound 9 s := by
  decide +kernel

/-- The methods only call the one before them. -/
theorem isAcyclic : (classHierarchy (program 9)).IsAcyclic := by
  have hranks : ∀ e ∈ hierarchyEdges (program 9),
      names.idxOf e.callee.text < names.idxOf e.site.method.text := by
    decide
  refine CallGraph.isAcyclic_of_rank (fun m => names.idxOf m.text) fun {site m} hm => ?_
  have hedge := ((listedBy_classHierarchy (program 9)).hasEdge site m).1
    (List.contains_iff_mem.2 hm)
  exact hranks _ hedge

end Nesting

/-- What is written by a method is found through another local of its caller. -/
theorem Run.callerAliases_nested : ∃ r, Reachable (Nesting.setting 1) r ∧ r.phase = .converged ∧
    r.CallerAliasesDelivered (Nesting.setting 1) Solver.maxFrames ∧
    r.Has ⟨0⟩ fun s => fieldAt (Nesting.other 1) (.named "f")
      (Solver.below (Nesting.other 1) (.named "f")) ∈ s.fields.transitions := by
  obtain ⟨r, hr, hconverged, hlisted⟩ := Nesting.exists_run Nesting.exhibits_one
  have hdelivered := (callerAliases_of_converged (Nesting.program 1) .everything
    { timeout := none }).1 r hr hconverged
  exact ⟨r, hr, hconverged, hdelivered,
    Nesting.found_of_delivered Nesting.exhibits_one hlisted (hdelivered.mono (by decide))⟩

/-- What is written nine calls deep is not found through a local of the main method, although no
    method calls itself. -/
theorem Run.callerAliases_missed :
    (Nesting.description 9).resolve = .ok (Nesting.program 9) ∧
      (classHierarchy (Nesting.program 9)).IsAcyclic ∧
      ∃ r, Reachable (Nesting.setting 9) r ∧ r.phase = .converged ∧
        ¬r.CallerAliasesDelivered (Nesting.setting 9) 9 := by
  refine ⟨Nesting.resolve_description, Nesting.isAcyclic, ?_⟩
  obtain ⟨hexhibits, hmissed⟩ := Nesting.exhibits_nine
  obtain ⟨r, hr, hconverged, hlisted⟩ := Nesting.exists_run hexhibits
  refine ⟨r, hr, hconverged, fun hdelivered => ?_⟩
  obtain ⟨s, l, hs, hl, hP⟩ := hlisted.exists_solver hmissed
  have hfound := (Nesting.found_of_delivered hexhibits hlisted hdelivered).of_solver? hs
  rw [hl.fields.transitions] at hfound
  exact of_decide_eq_true hP hfound

end DemandAlias
