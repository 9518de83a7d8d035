import DemandAlias.Proofs.Run.Legit
import DemandAlias.Proofs.Search.Relation

/-!
# All that a solver has is justified

In a program without calls, everything a solver has stands for steps of the search it is
for, and so does everything it asks of others and tells them. This is a bound of the
solver (`justified`): a transition out of a node stands for steps to the node
(`Stands`), one out of a generated state for the push it was generated for (`Pushed`), a
rule for steps from the transitions it listens to (`Rule`), and a message for what the
solver it is for may conclude (`Told`). The solver adds nothing else (`closed_justified`).

What other solvers are for is a parameter: `who id direction seed` says that the solver
with the number `id` searches in this direction and from this seed.
-/

namespace DemandAlias.Search

open Solver

variable {q : State} {n : Node} {label : Field}

/-! ### What transitions stand for -/

section Search

variable (p : Program) (direction : Direction) (seed : Node)

/-- The move from `n` stands for a step. It leads within the program, and leaves the stack
    of calls and the empty label alone. -/
structure Passes (n : Node) (m : Move) : Prop where
  target : m.target.stmt ∈ p.statements
  accesses : ∃ f, f ≠ some .epsilon ∧ m.Accesses f
  steps : ∀ {fields fields'}, Acts m fields fields' →
    Steps p direction seed ⟨n, fields⟩ ⟨m.target, fields'⟩

/-- The transition from `n` by `label` to `q` stands for steps: to the bottom, from the
    seed with nothing to be read; and to a state below a field, from where the field was
    pushed, whatever is to be read after it. -/
inductive Stands (n : Node) : Field → State → Prop
  | bottom (hn : n.stmt ∈ p.statements) (h : Finds p direction seed ⟨n, []⟩) :
    Stands n .epsilon (.bottom seed)
  | above {m : Node} {f : Field} (hn : n.stmt ∈ p.statements) (hf : f ≠ .epsilon)
      (h : ∀ fields, Steps p direction seed ⟨m, f :: fields⟩ ⟨n, f :: fields⟩) :
    Stands n f (Solver.below m f)

/-- The transition by `label` to `q`, out of the state below the field `f` that was pushed
    at `m`, stands for the push. -/
def Pushed (m : Node) (f label : Field) (q : State) : Prop :=
  ∃ n, Stands p direction seed n label q ∧
    ∀ fields, Steps p direction seed ⟨n, fields⟩ ⟨m, f :: fields⟩

/-- What is below a field that was on the way to `q` is to be read at `target`. -/
def Pops (q : State) (target : Node) : Prop :=
  target.stmt ∈ p.statements ∧ ∃ n label, Stands p direction seed n label q ∧
    label ≠ .epsilon ∧ ∀ fields, Steps p direction seed ⟨n, label :: fields⟩ ⟨target, fields⟩

variable {p direction seed}

theorem Stands.mem_statements (h : Stands p direction seed n label q) : n.stmt ∈ p.statements := by
  cases h with
  | bottom hn => exact hn
  | above hn => exact hn

/-- Steps that leave what is to be read alone lead to transitions that stand for steps. -/
theorem Stands.steps {n m : Node} (h : Stands p direction seed n label q)
    (hm : m.stmt ∈ p.statements)
    (hsteps : ∀ fields, Steps p direction seed ⟨n, fields⟩ ⟨m, fields⟩) :
    Stands p direction seed m label q := by
  cases h with
  | bottom _ h => exact .bottom hm (h.trans (hsteps _))
  | above _ hf h => exact .above hm hf fun fields => (h fields).trans (hsteps _)

/-- A state below a field has the transitions of what was below the field when it was pushed. -/
theorem Pops.stands {m target : Node} {f label : Field}
    (h : Pops p direction seed (Solver.below m f) target)
    (hq : Pushed p direction seed m f label q) :
    Stands p direction seed target label q := by
  obtain ⟨htarget, n, f', hn, hf', hsteps⟩ := h
  obtain ⟨n', hn', hpush⟩ := hq
  obtain ⟨state, hstate⟩ : ∃ state, state = Solver.below m f := ⟨_, rfl⟩
  rw [← hstate] at hn
  cases hn with
  | bottom => cases hstate
  | above _ _ h =>
    cases hstate
    exact hn'.steps htarget fun fields => ((hpush fields).trans (h fields)).trans (hsteps fields)

end Search

/-! ### What rules and messages stand for -/

section Bound

variable (p : Program) (who : SolverId → Direction → Node → Prop) (direction : Direction)
  (seed : Node)

/-- A rule of the automaton of calls: nothing is called, so the stack of calls is always empty. -/
inductive CallRuled {ω : Type} : CallRule ω → Prop
  | reach : CallRuled .reach
  | step (n m : Node) : CallRuled (.step n m)
  | storeContext {requester : SolverId} {seed' : Node} (hwho : who requester .backward seed')
      (value : Node) : CallRuled (.request (.storeContext requester value))
  | callerFrames (requester : SolverId) (store : Node) (field : Field) :
    CallRuled (.request (.callerFrames requester store field []))

/-- A rule of the automaton of fields stands for steps from what it listens to. -/
inductive FieldRuled : Topic State Field → FieldRule → Prop
  | reach : FieldRuled .all .reach
  | move {n : Node} {m : Move} (h : Passes p direction seed n m) :
    FieldRuled (.out (.located n)) m.fieldRule
  | popMatch {q : State} {target : Node} (h : Pops p direction seed q target) :
    FieldRuled (.out q) (.popMatch target)
  | allocation {n : Node} (hdirection : direction = .backward)
      (hn : n.stmt.allocates n.var = true) :
    FieldRuled (.out (.located n)) (.request (.allocation n))
  | aliasesAt {requester : SolverId} {seed' store : Node} {base : Local} {field : Field}
      (hdirection : direction = .forward) (hwho : who requester .forward seed')
      (hmem : store.stmt ∈ p.statements)
      (hstore : store.stmt.action = .store base field store.var)
      (hseed : seed.stmt.allocates seed.var = true)
      (hbase : Finds p .backward ⟨store.stmt, base⟩ ⟨seed, []⟩) :
    FieldRuled .all (.request (.aliasesAt requester store base field))
  | storesOf {requester : SolverId} {seed' : Node} {field : Field} {q : State}
      (hdirection : direction = .forward) (hwho : who requester .backward seed')
      (hseed : seed.stmt.allocates seed.var = true)
      (hq : Stands p .backward seed' seed field q) (hfield : field ≠ .epsilon) :
    FieldRuled .all (.request (.storesOf requester field q))

/-- A message stands for what the solver it is for may conclude. -/
inductive Told : Message → Prop
  | wanted (name : MethodName) : Told (.wanted (.outOf name))
  | fieldWrite {store : Node} {base : Local} {field : Field} (hdirection : direction = .forward)
      (hmem : store.stmt ∈ p.statements)
      (hstore : store.stmt.action = .store base field store.var) :
    Told (.fieldWrite store base field)
  | allocation {n : Node} {label : Field} {q : State} (hdirection : direction = .backward)
      (h : Stands p direction seed n label q) : Told (.allocation n label q)
  | aliasAt {requester : SolverId} {seed' store other : Node} {field : Field}
      (hwho : who requester .forward seed')
      (h : ∀ t ∈ p.successors store.stmt,
        Passes p .forward seed' store (.push ⟨t, other.var⟩ (.field field))) :
    Told (.aliasAt requester store field other [])
  | storeFound {requester : SolverId} {seed' store : Node} {q : State} {value : Local}
      (hwho : who requester .backward seed')
      (h : Pops p .backward seed' q ⟨store.stmt, value⟩) :
    Told (.storeFound requester q store value)
  | storeContext {requester : SolverId} {seed' : Node} (hwho : who requester .backward seed')
      (value : Node) : Told (.storeContext requester value (.bottom seed))
  | unreachable (n : Node) : Told (.unreachable n)

/-- What a solver may have. -/
def justified (ω : Type) : Bound ω where
  call t := ∃ n, t = callAt n (.bottom seed)
  field t := (∃ n label q, t = fieldAt n label q ∧ Stands p direction seed n label q) ∨
    ∃ m f label q, t = ⟨Solver.below m f, label, q⟩ ∧ Pushed p direction seed m f label q
  callRule _ rule := CallRuled who rule
  fieldRule topic rule := FieldRuled p who direction seed topic rule
  message m := Told p who direction seed m
  watcher x _ := ∃ name, x = .outOf name

end Bound

variable {ω : Type} {p : Program} {who : SolverId → Direction → Node → Prop}
  {direction : Direction} {seed : Node} {m : Move}

/-! ### Transitions and rules -/

theorem stands_of_field (h : (justified p who direction seed ω).field (fieldAt n label q)) :
    Stands p direction seed n label q := by
  rcases h with ⟨_, _, _, heq, h⟩ | ⟨_, _, _, _, heq, -⟩
  · cases heq
    exact h
  · cases heq

theorem source_eq_of_out_mem_topics {t : FieldTransition} (h : Topic.out q ∈ t.topics) :
    t.source = q := by
  simp only [Transition.topics, mem_cons, Topic.out.injEq, reduceCtorEq, or_false, not_mem_nil] at h
  exact h.symm

/-- What a rule of a move does with a transition of its node is justified. -/
theorem allows_moveRule (hm : Passes p direction seed n m)
    (hq : Stands p direction seed n label q) :
    ∀ x ∈ m.fieldRule.changes (fieldAt n label q), (justified p who direction seed ω).Allows x := by
  intro x hx
  obtain ⟨htarget, ⟨field, hfield, haccesses⟩, hsteps⟩ := hm
  match m with
  | .step m =>
    rw [mem_singleton.1 hx]
    exact .inl ⟨m, label, q, rfl, hq.steps htarget fun _ => hsteps .step⟩
  | .push m (.field f) =>
    have hf : f ≠ .epsilon := fun heq => hfield (haccesses.trans (congrArg some heq))
    rcases mem_cons.1 hx with rfl | hx
    · exact .inl ⟨m, f, _, rfl, .above htarget hf fun _ => .refl⟩
    · rw [mem_singleton.1 hx]
      exact .inr ⟨m, f, label, q, rfl, n, hq, fun _ => hsteps .push⟩
  | .pop m (.field f) =>
    simp only [Move.fieldRule, FieldRule.changes] at hx
    split at hx
    · next hsees =>
      rw [mem_singleton.1 hx]
      refine .popMatch ⟨htarget, n, label, hq, ?_, fun _ => hsteps (.pop hsees)⟩
      rintro rfl
      cases f <;> cases hsees
    · cases hx
  | .push _ (.call _) | .pop _ (.call _) => exact haccesses.elim

/-- The rules of a move are justified. -/
theorem allows_moveChanges (hm : Passes p direction seed n m) :
    ∀ x ∈ m.changes n, (justified p who direction seed ω).Allows x := by
  refine Move.forall_changes ?_ (.move hm)
  obtain ⟨-, ⟨field, -, haccesses⟩, -⟩ := hm
  match m with
  | .step m | .push m (.field _) | .pop m (.field _) => exact .step n m
  | .push _ (.call _) | .pop _ (.call _) => exact haccesses.elim

theorem allows_callRule [Weight ω] {c : Setting ω} {rule : CallRule ω} (h : CallRuled who rule)
    (n : Node) (w : ω) : ∀ x ∈ rule.changes c (.bottom seed) (callAt n (.bottom seed)) w,
      (justified p who direction seed ω).Allows x := by
  intro x hx
  cases h with
  | reach =>
    rw [mem_singleton.1 hx]
    trivial
  | step _ target =>
    rw [mem_singleton.1 hx]
    exact ⟨target, rfl⟩
  | storeContext hwho value =>
    rw [mem_singleton.1 hx]
    exact .storeContext hwho value
  | callerFrames =>
    -- The search for callers ends at the bottom at once.
    simp [CallRule.changes, CallRequest.changes, callAt, searchChanges] at hx

section Program

variable (hp : p.IsLaidOut) (hnamed : p.FieldsNamed)

include hp hnamed

/-- A move within a method stands for a step. -/
theorem passes_of_mem_moves (hn : n.stmt ∈ p.statements)
    (hm : m ∈ (p.flow direction seed n).moves) : Passes p direction seed n m := by
  have hsteps : ∀ {fields fields'}, Acts m fields fields' →
      Steps p direction seed ⟨n, fields⟩ ⟨m.target, fields'⟩ := fun hacts => .move .refl hm hacts
  cases direction with
  | forward =>
    obtain ⟨htarget, haccesses⟩ := Flow.Forward.accesses_of_mem_moves hm
    exact ⟨hp.mem_statements_of_mem_successors htarget, ⟨_, hnamed _ hn, haccesses⟩, hsteps⟩
  | backward =>
    obtain ⟨htarget, haccesses⟩ := Flow.Backward.accesses_of_mem_moves hm
    have hmem := hp.mem_statements_of_mem_predecessors htarget
    exact ⟨hmem, ⟨_, hnamed _ hmem, haccesses⟩, hsteps⟩

/-- What a request does with a transition of a node is justified. -/
theorem allows_fieldRequest {topic : Topic State Field} {r : FieldRequest}
    (h : FieldRuled p who direction seed topic (.request r)) {t : FieldTransition}
    (htopic : topic ∈ t.topics) (ht : (justified p who direction seed ω).field t) :
    ∀ x ∈ r.changes t, (justified p who direction seed ω).Allows x := by
  intro x hx
  generalize hrule : FieldRule.request r = rule at h
  cases h with
  | reach | popMatch h => cases hrule
  | move => exact absurd hrule.symm (fieldRule_ne_request _ r)
  | allocation hdirection =>
    cases hrule
    obtain ⟨source, label, q⟩ := t
    obtain rfl := source_eq_of_out_mem_topics htopic
    rw [mem_singleton.1 hx]
    exact .allocation hdirection (stands_of_field ht)
  | aliasesAt hdirection hwho hmem hstore hseed hbase =>
    cases hrule
    subst hdirection
    rcases ht with ⟨n, label, q, rfl, hq⟩ | ⟨m, f, label, q, rfl, -⟩
    · simp only [FieldRequest.changes, fieldAt] at hx
      obtain ⟨⟨rfl, hother, hne⟩, hchange⟩ := List.mem_ite_nil_right.1 hx
      rw [mem_singleton.1 hchange]
      cases hq with
      | bottom _ hfinds =>
        -- What is written to a field of an object may be read from every other local that holds
        -- the object.
        refine .aliasAt hwho fun t ht => ⟨hp.mem_statements_of_mem_successors ht,
          ⟨_, hnamed _ hmem, by rw [Statement.field?, hstore]; rfl⟩, fun hacts => ?_⟩
        cases hacts
        exact .shared .refl hstore hseed hbase (hother ▸ hfinds) hne ht
      | above _ hf => exact absurd rfl hf
    · cases hx
  | storesOf hdirection hwho hseed hstands hfield =>
    cases hrule
    subst hdirection
    rcases ht with ⟨n, label, q, rfl, hq⟩ | ⟨m, f, label, q, rfl, -⟩
    · simp only [FieldRequest.changes, fieldAt] at hx
      split at hx
      · next base written value haction =>
        obtain ⟨⟨rfl, rfl, hsees⟩, hchange⟩ := List.mem_ite_nil_right.1 hx
        rw [mem_singleton.1 hchange]
        cases hq with
        | bottom hn hfinds =>
          exact .storeFound hwho ⟨hn, seed, _, hstands, hfield, fun fields =>
            .stored .refl hseed hfinds haction hsees⟩
        | above _ hf => exact absurd rfl hf
      · cases hx
    · cases hx

omit hnamed in
theorem crossings_eq (hcalls : ∀ s ∈ p.statements, s.isCall = false) (hn : n.stmt ∈ p.statements) :
    (p.flow direction seed n).crossings = (p.flow direction seed n).callersOf.toList.map .outOf := by
  have hsites : (p.flow direction seed n).callSites = [] := by
    refine List.eq_nil_iff_forall_not_mem.2 fun site hsite => ?_
    obtain ⟨hcall, hplace⟩ := Program.isCall_of_mem_callSites hsite
    have hmem : site ∈ p.statements := by
      rcases hplace with rfl | hmem
      · exact hn
      · exact hp.mem_statements_of_mem_predecessors hmem
    rw [hcalls site hmem] at hcall
    cases hcall
  rw [Flow.crossings, hsites]
  rfl

/-- A solver in a program without calls stays within the bound. -/
theorem closed_justified [Weight ω] {c : Setting ω} {s : Solver ω} {g : CallGraph}
    (hprogram : c.program = p) (hcalls : ∀ s ∈ p.statements, s.isCall = false)
    (hg : ∀ x : Crossing, x.edges g = []) :
    (justified p who s.direction s.seed ω).Closed c g s where
  callRules hrule _ ht w := by
    obtain ⟨n, rfl⟩ := ht
    exact allows_callRule hrule n w
  fieldRules {topic rule t} hrule htopic ht x hx := by
    cases hrule with
    | reach =>
      cases FieldRule.yields_of_mem hx
      trivial
    | move hm =>
      obtain ⟨source, label, q⟩ := t
      obtain rfl := source_eq_of_out_mem_topics htopic
      exact allows_moveRule hm (stands_of_field ht) x hx
    | popMatch hpops =>
      obtain ⟨source, label, q⟩ := t
      obtain rfl := source_eq_of_out_mem_topics htopic
      rw [mem_singleton.1 hx]
      rcases ht with ⟨n, label, q, heq, -⟩ | ⟨m, f, label, q, heq, hpushed⟩
      · -- Nothing is below a node.
        cases heq
        obtain ⟨-, _, _, hstands, -⟩ := hpops
        cases hstands
      · cases heq
        exact .inl ⟨_, label, q, rfl, hpops.stands hpushed⟩
    | allocation hdirection hn =>
      exact allows_fieldRequest hp hnamed (.allocation hdirection hn) htopic ht x hx
    | aliasesAt hdirection hwho hmem hstore hseed hbase =>
      exact allows_fieldRequest hp hnamed (.aliasesAt hdirection hwho hmem hstore hseed hbase)
        htopic ht x hx
    | storesOf hdirection hwho hseed hq hfield =>
      exact allows_fieldRequest hp hnamed (.storesOf hdirection hwho hseed hq hfield) htopic ht x hx
  nodes {n q l p'} _ hfield _ := by
    have hn := (stands_of_field hfield).mem_statements
    refine forall_nodeChanges (fun m hm => ?_) (fun hforward hstore => ?_) fun hback hallocates => ?_
    · rw [hprogram] at hm
      exact allows_moveChanges (passes_of_mem_moves hp hnamed hn hm)
    · exact .fieldWrite hforward hn hstore
    · exact .allocation hback hallocates
  crossings {n q l p'} _ hfield _ x hx := by
    rw [flowAt_eq, hprogram, crossings_eq hp hcalls (stands_of_field hfield).mem_statements] at hx
    obtain ⟨name, -, rfl⟩ := mem_map.1 hx
    exact ⟨name, rfl⟩
  -- Without calls there are no edges to follow.
  edges _ he := absurd (hg _ ▸ he) not_mem_nil
  wanted hwatch := by
    obtain ⟨name, rfl⟩ := hwatch
    exact .wanted name
  unreachable {n _ _ _} _ _ _ _ := .unreachable n

end Program

end DemandAlias.Search
