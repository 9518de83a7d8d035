import DemandAlias.Proofs.AccessPaths
import DemandAlias.Proofs.Schedule.Grounding
import DemandAlias.Proofs.Schedule.Reweighing
import Mathlib.Algebra.Order.BigOperators.Group.List

/-!
# Loops make for paths of any length

The answer to a forward query says whether stacks of calls and stacks of fields are unbounded. What
is looked for is a loop of an automaton, and there is one exactly if paths from its initial states
get as long as one likes (`Automaton.hasLoop_iff_unbounded`). These may end anywhere. But in a run
that has converged, all that is on them leads on to the bottom, so they are the upper parts of
stacks (`Session.flagsUnbounded_of_converges`).

Of calls this is known (`Run.Scheduled.grounded`). A field that is pushed comes with the transition
to what it is pushed on, so again the run is compared with what it has at its end
(`RunBound.narrowFields`). The empty label leads to the bottom and nowhere else, so that a stack of
fields has it once, at its end (`Solver.FieldsEnd.eq_append_epsilon`).
-/

namespace DemandAlias

variable {state : State}

/-! ### Paths of an automaton -/

/-- The labels lead from the one state to the other by the transitions. -/
inductive Transition.Path {σ Λ : Type} (ts : List (Transition σ Λ)) : σ → List Λ → σ → Prop
  | nil (q : σ) : Path ts q [] q
  | cons {p q q' : σ} {l : Λ} {ls : List Λ} (ht : ⟨p, l, q⟩ ∈ ts) (h : Path ts q ls q') :
    Path ts p (l :: ls) q'

namespace Transition.Path

variable {σ Λ : Type} {ts ts' : List (Transition σ Λ)} {p q q' : σ} {ls ls' : List Λ}

theorem append (h : Path ts p ls q) (h' : Path ts q ls' q') : Path ts p (ls ++ ls') q' := by
  induction h with
  | nil => exact h'
  | cons ht _ ih => exact .cons ht (ih h')

theorem of_append (h : Path ts p (ls ++ ls') q') : ∃ q, Path ts p ls q := by
  induction ls generalizing p with
  | nil => exact ⟨p, .nil p⟩
  | cons _ _ ih =>
    cases h with
    | cons ht h =>
      obtain ⟨q, hq⟩ := ih h
      exact ⟨q, .cons ht hq⟩

theorem mono (h : Path ts p ls q) (hts : ts ⊆ ts') : Path ts' p ls q := by
  induction h with
  | nil q => exact .nil q
  | cons ht _ ih => exact .cons (hts ht) ih

theorem sorted_iff [Ord (Transition σ Λ)] : Path (sorted ts) p ls q ↔ Path ts p ls q :=
  ⟨fun h => h.mono fun _ => mem_mergeSort.1, fun h => h.mono fun _ => mem_mergeSort.2⟩

/-- By a circle a path gets as long as one likes. -/
theorem around {l l' : Λ} (hin : ⟨p, l, q⟩ ∈ ts) (hround : ⟨q, l, q⟩ ∈ ts)
    (hout : ⟨q, l', q'⟩ ∈ ts) (k : Nat) : Path ts p (l :: List.replicate k l ++ [l']) q' := by
  refine .cons hin ?_
  induction k with
  | zero => exact .cons hout (.nil q')
  | succ k ih => exact .cons hround ih

/-- A path that is not empty has a last transition. -/
theorem exists_last (h : Path ts p ls q) (hne : ls ≠ []) :
    ∃ t ∈ ts, t.label ∈ ls ∧ t.target = q := by
  induction h with
  | nil => exact absurd rfl hne
  | @cons _ _ _ _ _ ht h ih =>
    cases h with
    | nil => exact ⟨_, ht, mem_cons_self, rfl⟩
    | cons =>
      obtain ⟨t, hmem, hlabel, htarget⟩ := ih (cons_ne_nil _ _)
      exact ⟨t, hmem, mem_cons_of_mem _ hlabel, htarget⟩

end Transition.Path

namespace Automaton

open Transition (Path)

variable {σ Λ ω κ : Type} [DecidableEq σ] [Hashable σ] [DecidableEq Λ] [Hashable Λ]
  {a : Automaton σ Λ ω κ} {silent : Λ → Bool} {q : σ}

/-- Where one can go on for ever, there are paths of every length. -/
theorem exists_path_of_not_acc (h : ¬Acc (a.LeadsTo silent) q) (k : Nat) :
    ∃ ls p, ls.length = k ∧ (∀ l ∈ ls, silent l = false) ∧ Path a.transitions q ls p := by
  induction k generalizing q with
  | zero => exact ⟨[], q, rfl, fun _ hl => (nomatch hl), .nil q⟩
  | succ k ih =>
    obtain ⟨q', hq', l, hloud, ht⟩ := exists_not_acc_lt_of_not_acc h
    obtain ⟨ls, p, rfl, hlouds, hpath⟩ := ih hq'
    exact ⟨l :: ls, p, rfl, forall_mem_cons.2 ⟨hloud, hlouds⟩, .cons ht hpath⟩

/-- Where one cannot go on for ever, no path is longer than some length, as there are finitely many
    transitions to go on by. -/
theorem exists_bound_of_acc (h : Acc (a.LeadsTo silent) q) :
    ∃ k, ∀ ls p, (∀ l ∈ ls, silent l = false) → Path a.transitions q ls p → ls.length ≤ k := by
  induction h with
  | intro q _ ih =>
    -- Each state that comes next has a bound, and their sum is a bound for all of them.
    choose! bound hbound using ih
    refine ⟨(a.transitions.map fun t => bound t.target).sum + 1, fun ls p hlouds hpath => ?_⟩
    cases hpath with
    | nil => exact Nat.zero_le _
    | @cons _ q' _ l ls ht hpath =>
      obtain ⟨hloud, hlouds⟩ := forall_mem_cons.1 hlouds
      calc (l :: ls).length = ls.length + 1 := length_cons
        _ ≤ bound q' + 1 := Nat.succ_le_succ (hbound q' ⟨l, hloud, ht⟩ ls p hlouds hpath)
        _ ≤ _ := Nat.succ_le_succ (List.le_sum_of_mem (mem_map.2 ⟨_, ht, rfl⟩))

/-- A loop is found exactly if there are arbitrarily long paths from the initial states. -/
theorem hasLoop_iff_unbounded (h : a.Filed) (silent : Λ → Bool) :
    a.hasLoop silent = true ↔ ∀ k, ∃ i ∈ a.initial, ∃ ls p,
      k ≤ ls.length ∧ (∀ l ∈ ls, silent l = false) ∧ Path a.transitions i ls p := by
  rw [← Bool.not_eq_false, hasLoop_eq_false_iff h]
  constructor
  · intro hloop k
    obtain ⟨i, hi, hacc⟩ : ∃ i ∈ a.initial, ¬Acc (a.LeadsTo silent) i := by simpa using hloop
    obtain ⟨ls, p, hlength, hlouds, hpath⟩ := exists_path_of_not_acc hacc k
    exact ⟨i, hi, ls, p, hlength.ge, hlouds, hpath⟩
  · intro hlong hacc
    choose! bound hbound using fun i hi => exists_bound_of_acc (hacc i hi)
    obtain ⟨i, hi, ls, p, hlength, hlouds, hpath⟩ := hlong ((a.initial.toList.map bound).sum + 1)
    have hle := hbound i hi ls p hlouds hpath
    have hsum : bound i ≤ (a.initial.toList.map bound).sum :=
      List.le_sum_of_mem (List.mem_map_of_mem hi)
    omega

end Automaton

/-! ### Bounds on the transitions for fields -/

section Narrowing

variable {ω : Type}

/-- The transition for a field that the change adds, if any, is one of `F`. -/
def Change.FieldIn (F : FieldTransition → Prop) : Change ω → Prop
  | .field t => F t
  | _ => True

/-- What the bound allows, with fewer transitions for fields. -/
def Bound.narrowFields (b : Bound ω) (F : FieldTransition → Prop) : Bound ω :=
  { b with field := fun t => b.field t ∧ F t }

/-- What the run may have, with fewer transitions for fields. -/
def RunBound.narrowFields (b : RunBound ω) (F : Query → FieldTransition → Prop) : RunBound ω :=
  { b with solver := fun N q => (b.solver N q).narrowFields (F q) }

variable {F : FieldTransition → Prop}

theorem Bound.allows_narrowFields {b : Bound ω} {x : Change ω} (hx : b.Allows x)
    (hF : x.FieldIn F) : (b.narrowFields F).Allows x := by
  cases x with
  | field => exact ⟨hx, hF⟩
  | _ => exact hx

/-- Only the rules of the automaton of fields add to it. -/
theorem Change.AddsRule.fieldIn {x : Change ω} (h : x.AddsRule) : x.FieldIn F := by
  cases x with
  | field => exact h.elim
  | _ => trivial

variable [Weight ω]

theorem fieldIn_callRule (c : Setting ω) (bottom : State) (rule : CallRule ω) (t : CallTransition)
    (w : ω) : ∀ x ∈ rule.changes c bottom t w, x.FieldIn F := by
  intro x hx
  cases CallRule.yields_of_mem hx with
  | request h => cases h <;> trivial
  | _ => trivial

/-- A bound stays closed if the rules of the automaton of fields lead from what is left of its
    transitions to what is left. -/
theorem Bound.Closed.narrowFields {b : Bound ω} {c : Setting ω} {g : CallGraph} {s : Solver ω}
    (h : b.Closed c g s) (hF : ∀ {topic rule t}, b.fieldRule topic rule → topic ∈ t.topics →
      b.field t → F t → ∀ x ∈ rule.changes (ω := ω) t, x.FieldIn F) :
    (b.narrowFields F).Closed c g s where
  callRules hrule hmem ht w x hx :=
    allows_narrowFields (h.callRules hrule hmem ht w x hx) (fieldIn_callRule c _ _ _ w x hx)
  fieldRules hrule hmem ht x hx :=
    allows_narrowFields (h.fieldRules hrule hmem ht.1 x hx) (hF hrule hmem ht.1 ht.2 x hx)
  nodes hq hp hincluded x hx :=
    allows_narrowFields (h.nodes hq hp.1 hincluded x hx) (Solver.forall_nodeChanges
      (fun m _ x hx => (addsRule_moveChanges _ m x hx).fieldIn) (fun _ _ => trivial)
      (fun _ _ => trivial) x hx)
  crossings hq hp hincluded := h.crossings hq hp.1 hincluded
  edges hx he y hy := by
    refine allows_narrowFields (h.edges hx he y hy) ?_
    obtain ⟨m, -, hy⟩ := mem_flatMap.1 hy
    exact (addsRule_moveChanges _ m y hy).fieldIn
  wanted := h.wanted
  unreachable hq hp := h.unreachable hq hp.1

omit [Weight ω] in
theorem RunBound.Admits.of_narrowFields {b : RunBound ω} {F : Query → FieldTransition → Prop}
    {N : Naming} (h : (b.narrowFields F).Admits N) : b.Admits N :=
  ⟨h.inj, h.query⟩

theorem RunBound.Closed.narrowFields {b : RunBound ω} {c : Setting ω} (h : b.Closed c)
    {F : Query → FieldTransition → Prop}
    (hstart : ∀ {q}, b.query q → F q (fieldAt q.node .epsilon (.bottom q.node)))
    (hF : ∀ {N q topic rule t}, b.query q → (b.solver N q).fieldRule topic rule →
      topic ∈ t.topics → (b.solver N q).field t → F q t →
      ∀ x ∈ rule.changes (ω := ω) t, x.FieldIn (F q)) :
    (b.narrowFields F).Closed c where
  solver_mono hN q :=
    let hle := h.solver_mono hN q
    { hle with field := fun ht => ⟨hle.field ht.1, ht.2⟩ }
  subscriber_mono := h.subscriber_mono
  start hq := by
    obtain ⟨hcall, hfield, hrules⟩ := h.start hq
    exact ⟨hcall, ⟨hfield, hstart hq⟩, hrules⟩
  message {N sender q m size} hN hq hm hlegit := by
    have hpasses : b.Passes c N sender q m := h.message hN.of_narrowFields hq hm hlegit
    cases m with
    | aliasAt _ store field other frames =>
      exact fun q' hq' x hx => Bound.allows_narrowFields (hpasses q' hq' x hx)
        (addsRule_aliasChanges c.program store field other frames x hx).fieldIn
    | _ => exact hpasses
  notice {N q k a size} hN hq hk hlegit ha := by
    have hnotifies : b.Notifies c.program N a k := h.notice hN.of_narrowFields hq hk hlegit ha
    cases k with
    | fieldWrite requester store base field =>
      exact ⟨hnotifies.1, fun x hx => Bound.allows_narrowFields (hnotifies.2 x hx)
        (addsRule_watchChanges requester store base field x hx).fieldIn⟩
    | _ => exact hnotifies
  closed {N q} hN hq {g s} hg hdirection hseed :=
    (h.closed hN.of_narrowFields hq hg hdirection hseed).narrowFields (hF hq)

end Narrowing

/-! ### Stacks of fields come to their bottom -/

open Transition (Path)

namespace Run

variable {ω : Type} [Weight ω] [DecidableEq ω] {c : Setting ω} {r : Run ω}

/-- What the transition leads to leads to the bottom in the solver of the query. -/
def FieldEnds (r : Run ω) (q : Query) (t : FieldTransition) : Prop :=
  ∀ ⦃id s⦄, r.Names id q → r.solver? id = some s →
    ∃ ls, Path s.fields.transitions t.target ls s.bottom

/-- What rules make of a transition that leads to the bottom does so, too. -/
theorem Complete.fieldIn_fieldRule (h : r.Complete c) {id : SolverId} {s : Solver ω} {q : Query}
    (hq : r.Names id q) (hs : r.solver? id = some s) {R : SolverId → SolverId → Prop}
    {topic : Topic State Field} {rule rule' : FieldRule} (hk : s.fields.Listens topic rule')
    (hrule : rule.Matches R rule') {t : FieldTransition} (ht : t ∈ s.fields.transitions)
    (hmem : topic ∈ t.topics) (hends : r.FieldEnds q t) :
    ∀ x ∈ rule.changes (ω := ω) t, x.FieldIn (r.FieldEnds q) := by
  intro x hx
  cases FieldRule.yields_of_mem hx with
  | reach | pop => trivial
  | step | below | popMatch => exact hends
  | push target field =>
    -- What is below the field leads to what it was pushed on.
    intro id' s' hq' hs'
    cases some.inj (hq.symm.trans hq')
    cases some.inj (hs.symm.trans hs')
    cases hrule
    have hbelow : ⟨Solver.below target field, t.label, t.target⟩ ∈ s.fields.transitions :=
      (h.finished hs).field hk ht hmem _ (mem_cons_of_mem _ mem_cons_self)
    obtain ⟨ls, hls⟩ := hends hq hs
    exact ⟨t.label :: ls, .cons hbelow hls⟩
  | request h => cases h <;> trivial

theorem Complete.closed_fieldEnds [ZeroFree ω] (hc : c.weighing.ZeroFree) (h : r.Complete c)
    {graph : CallGraph} (hgraph : graph.Grows r.graph) :
    ((r.mirrored c graph).narrowFields r.FieldEnds).Closed c := by
  refine (h.closed_mirrored hc hgraph).narrowFields (fun {q} _ id s hq hs => ?_)
    fun {N q topic rule t} hq hrule hmem ht hends => ?_
  · obtain ⟨hseed, -⟩ := (h.ids hq).of_solver? hs
    rw [bottom, hseed]
    exact ⟨[], .nil _⟩
  · obtain ⟨id, hid⟩ := hq
    obtain ⟨s, hs, -⟩ := h.ids hid
    rw [solver_mirrored hid hs] at hrule ht
    obtain ⟨rule', hk, hmatch⟩ := hrule
    exact h.fieldIn_fieldRule hid hs hk hmatch ht hmem hends

end Run

theorem Solver.Grounded.exists_path {ω : Type} {s : Solver ω} {q : State} (h : s.Grounded q) :
    ∃ ls, Path s.calls.transitions q ls s.bottom := by
  induction h with
  | bottom => exact ⟨[], .nil _⟩
  | @step t ht _ ih =>
    obtain ⟨ls, hls⟩ := ih
    exact ⟨t.label :: ls, .cons ht hls⟩

/-- How the stacks of fields of a solver end: by the empty label, which leads to the bottom and
    nowhere else, and every path can be gone on with to there. -/
structure Solver.FieldsEnd {ω : Type} (s : Solver ω) : Prop where
  step : ∀ t ∈ s.fields.transitions, PathStep s.bottom t.label t.target
  source : ∀ t ∈ s.fields.transitions, t.source ≠ s.bottom
  ends : ∀ t ∈ s.fields.transitions, ∃ ls, Path s.fields.transitions t.target ls s.bottom

theorem Solver.PathStep.ne_bottom {bottom : Node} {f : Field}
    (h : PathStep (.bottom bottom) f state) (hf : f ≠ .epsilon) : state ≠ .bottom bottom := by
  cases h with
  | last => exact absurd rfl hf
  | field => nofun

/-- A path to the bottom spells a stack of fields, with the empty label below them. -/
theorem Solver.FieldsEnd.eq_append_epsilon {ω : Type} {s : Solver ω} (h : s.FieldsEnd)
    {ls : List Field} (hpath : Path s.fields.transitions state ls s.bottom)
    (hstate : state ≠ s.bottom) : ∃ fields, .epsilon ∉ fields ∧ ls = fields ++ [.epsilon] := by
  generalize hbottom : s.bottom = bottom at hpath
  induction hpath with
  | nil => exact absurd hbottom.symm hstate
  | @cons _ next _ f _ ht hrest ih =>
    cases hbottom
    by_cases hf : f = .epsilon
    · -- Nothing leads on from the bottom.
      subst hf
      obtain rfl : next = s.bottom := (h.step _ ht).eq_bottom
      cases hrest with
      | nil => exact ⟨[], not_mem_nil, rfl⟩
      | cons ht' => exact absurd rfl (h.source _ ht')
    · obtain ⟨fields, hfields, rfl⟩ := ih ((h.step _ ht).ne_bottom hf) rfl
      exact ⟨f :: fields, by simp [hfields, Ne.symm hf], rfl⟩

/-! ### What is answered -/

/-- The answer says that stacks are unbounded just if they are: there are stacks of calls as deep as
    one likes from some local, and of fields from some node. -/
structure ForwardResult.FlagsUnbounded {ω : Type} (result : ForwardResult ω) : Prop where
  calls : result.hasRecursion = true ↔ ∀ k, ∃ v ls, k ≤ ls.length ∧
    Path result.automata.calls (.single v) ls result.automata.bottom
  fields : result.hasFieldLoop = true ↔ ∀ k, ∃ n fields, k ≤ fields.length ∧ .epsilon ∉ fields ∧
    Path result.automata.fields (.located n) (fields ++ [.epsilon]) result.automata.bottom

namespace Solver.Concluded

variable {ω : Type} [Weight ω] {c : Setting ω} {q : ForwardQuery} {s : Solver ω}

theorem hasRecursion_iff (h : s.Concluded c q)
    (hends : ∀ t ∈ s.calls.transitions, ∃ ls, Path s.calls.transitions t.target ls s.bottom) :
    (s.calls.hasLoop fun _ => false) = true ↔
      ∀ k, ∃ v ls, k ≤ ls.length ∧ Path s.calls.transitions (.single v) ls s.bottom := by
  obtain ⟨g, sent, hfinished⟩ := h.finished
  rw [Automaton.hasLoop_iff_unbounded hfinished.sound.calls.filed]
  constructor
  · intro hlong k
    obtain ⟨i, hi, ls, p, hlength, -, hpath⟩ := hlong (k + 1)
    obtain ⟨n, -, rfl, -⟩ := (hfinished.mem_initial_calls_iff h.marked i).1 hi
    -- The path goes on to the bottom from the target of its last transition.
    obtain ⟨t, ht, -, rfl⟩ := hpath.exists_last (List.ne_nil_of_length_pos (by omega))
    obtain ⟨rest, hrest⟩ := hends t ht
    refine ⟨n.var, ls ++ rest, ?_, hpath.append hrest⟩
    rw [length_append]
    omega
  · intro hlong k
    obtain ⟨v, ls, hlength, hpath⟩ := hlong (k + 1)
    refine ⟨.single v, ?_, ls, s.bottom, by omega, fun _ _ => rfl, hpath⟩
    cases hpath with
    | @cons _ p _ l _ ht =>
      exact (hfinished.mem_initial_calls_iff h.marked _).2 ⟨⟨l, v⟩, p, rfl, ht⟩

theorem hasFieldLoop_iff (h : s.Concluded c q) (hends : s.FieldsEnd) :
    s.fields.hasLoop (· == .epsilon) = true ↔
      ∀ k, ∃ n fields, k ≤ fields.length ∧ .epsilon ∉ fields ∧
        Path s.fields.transitions (.located n) (fields ++ [.epsilon]) s.bottom := by
  obtain ⟨g, sent, hfinished⟩ := h.finished
  rw [Automaton.hasLoop_iff_unbounded hfinished.sound.fields.filed]
  constructor
  · intro hlong k
    obtain ⟨i, hi, fields, p, hlength, hlouds, hpath⟩ := hlong (k + 1)
    obtain ⟨n, -, -, rfl, -⟩ := (hfinished.mem_initial_fields_iff h.marked i).1 hi
    have hloud : ∀ f ∈ fields, f ≠ .epsilon := fun f hf => by simpa using hlouds f hf
    obtain ⟨t, ht, hlabel, rfl⟩ := hpath.exists_last (List.ne_nil_of_length_pos (by omega))
    obtain ⟨rest, hrest⟩ := hends.ends t ht
    -- The last field does not lead to the bottom yet, so the rest ends with the empty label.
    obtain ⟨deeper, hdeeper, rfl⟩ :=
      hends.eq_append_epsilon hrest ((hends.step t ht).ne_bottom (hloud _ hlabel))
    refine ⟨n, fields ++ deeper, ?_, ?_, ?_⟩
    · rw [length_append]
      omega
    · exact fun hmem => (mem_append.1 hmem).elim (fun hmem => hloud _ hmem rfl) hdeeper
    · rw [append_assoc]
      exact hpath.append hrest
  · intro hlong k
    obtain ⟨n, fields, hlength, hfields, hpath⟩ := hlong k
    obtain ⟨p, hp⟩ := hpath.of_append
    refine ⟨.located n, ?_, fields, p, hlength, fun f hf => ?_, hp⟩
    · generalize fields ++ [Field.epsilon] = ls at hpath
      cases hpath with
      | @cons _ p _ l _ ht =>
        exact (hfinished.mem_initial_fields_iff h.marked _).2 ⟨n, l, p, rfl, ht⟩
    · simpa using ne_of_mem_of_not_mem hf hfields

end Solver.Concluded

theorem Vocabulary.FieldSource.ne_bottom {p : Program} {V : Vocabulary p} (h : V.FieldSource state)
    (n : Node) : state ≠ .bottom n := by
  intro heq
  cases h with
  | located => cases heq
  | below h =>
    cases h
    cases heq

namespace Session

variable {ω : Type} [Weight ω] [DecidableEq ω] [ZeroFree ω] {c : Setting ω} {session : Session ω}
  {q : ForwardQuery} {r : Run ω} {result : ForwardResult ω}

section

variable (h : session.Converges q r result) (harises : Arises c session) (hp : c.program.IsLaidOut)
  (hnamed : c.program.FieldsNamed) (hc : c.weighing.ZeroFree)
  (hq : q.node.stmt ∈ c.program.statements)
include h harises hp hnamed hc hq

/-- The stacks of fields of the solver of a query end as they are meant to. -/
theorem Converges.fieldsEnd {s : Solver ω} (hs : r.solver? ⟨0⟩ = some s) : s.FieldsEnd := by
  obtain rfl := harises.setting_eq
  obtain ⟨r₀, hscheduled, hrested, heq⟩ := h.convergesTo.exists_scheduled hc
  obtain ⟨elapsed, n, hadvance⟩ := h.advances
  obtain ⟨ho, -⟩ := (Run.orderly_begin session (.forward q)).1.advance hc elapsed n
  -- The labels of the vocabulary say where they lead.
  have hwithin : r.Within ((Vocabulary.asking _ q.node.var).bound session.graph) :=
    hadvance ▸ (Runs.begin.advance elapsed n).within_asking rfl hp hc (harises.hasEdge hp hc)
      (q := .forward q) hq
  have hstep := fun t => hwithin.pathStep (hadvance ▸ ho) hnamed hs (t := t)
  refine ⟨fun t ht => (hstep t ht).2, fun t ht => (hstep t ht).1.ne_bottom s.seed, fun t ht => ?_⟩
  have hcomplete := hscheduled.complete hc hrested
  have hw := hscheduled.within_narrowed hc
    (hcomplete.closed_fieldEnds hc (hscheduled.grows_graph hc))
  have hs₀ : r₀.solver? ⟨0⟩ = some s := by rw [heq] at hs; exact hs
  obtain ⟨q', hq'⟩ := hw.named hs₀
  exact ((hw.solver hq' hs₀).field ht).2 hq' hs₀

theorem Converges.flagsUnbounded : result.FlagsUnbounded := by
  have hends := fun {s} => h.fieldsEnd harises hp hnamed hc hq (s := s)
  obtain rfl := harises.setting_eq
  obtain ⟨r₀, hscheduled, hrested, heq⟩ := h.convergesTo.exists_scheduled hc
  obtain ⟨s, -, hs, hconcluded, rfl⟩ := h.exists_concluded hc
  constructor
  · simp only [Run.forwardResult, Snapshot.ofSolver, Path.sorted_iff]
    refine hconcluded.hasRecursion_iff fun t ht => ?_
    exact (hscheduled.grounded hc hrested (heq ▸ hs) ht).exists_path
  · simp only [Run.forwardResult, Snapshot.ofSolver, Path.sorted_iff]
    exact hconcluded.hasFieldLoop_iff (hends hs)

end

/-- If a forward query about the program converges, its answer says that stacks of calls and of
    fields are unbounded just if they are, whatever was asked before, whether reachability is asked
    for or trails. -/
theorem flagsUnbounded_of_converges {d : Description} {p : Program} (hp : d.resolve = .ok p)
    (scope : Scope) (options : Options) {q : ForwardQuery} (hq : q.node.stmt ∈ p.statements) :
    (∀ (session : Session Reach) (r : Run Reach) (result : ForwardResult Reach),
      Arises ⟨p, scope, .reach, options⟩ session → session.Converges q r result →
        result.FlagsUnbounded) ∧
    ∀ (session : Session Trail) (r : Run Trail) (result : ForwardResult Trail),
      Arises ⟨p, scope, .trail, options⟩ session → session.Converges q r result →
        result.FlagsUnbounded := by
  have hlaid := isLaidOut_of_resolve hp
  have hnamed := Description.fieldsNamed_of_resolve hp
  refine ⟨fun session r result harises h => ?_, fun session r result harises h => ?_⟩
  · exact h.flagsUnbounded harises hlaid hnamed zeroFree_reach hq
  · exact h.flagsUnbounded harises hlaid hnamed zeroFree_trail hq

end Session

/-! ### An example -/

namespace Wrapping

/-- A method puts what it gets into a field of a new object, and calls itself with that. -/
def description : Description where
  methods := [{
    name := "Main.main"
    params := ["p"]
    body := [.new "x" "X", .store "x" "f" "p", .call none "Main.main" [.var "x"], .jump 3] }]

def var (name : String) : Local := ⟨⟨"Main.main"⟩, name⟩

def field : Field := .named "f"

def actions : List Action :=
  [.assign (var "x") (.alloc ⟨"X"⟩), .store (var "x") field (var "p"),
    .call ⟨.static ⟨"Main.main"⟩, [.var (var "x")]⟩, .jump 3]

/-- The statement at a place. -/
def stmt (index : Nat) : Statement := ⟨⟨"Main.main"⟩, index, actions[index]?.getD .nop⟩

def program : Program where
  classes := []
  methods := [.ofActions ⟨"Main.main"⟩ none [var "p"] actions]
  unreachable := []

theorem resolve_description : description.resolve = .ok program := Description.resolve_method rfl

def setting {ω : Type} (weighing : Weighing ω) : Setting ω := ⟨program, .everything, weighing, {}⟩

/-- Where does the new object get to? -/
def creation : ForwardQuery := ⟨⟨stmt 0, var "x"⟩, rfl⟩

/-- The frame of the method. -/
def frame : State := Solver.frameOf ⟨stmt 0, var "p"⟩

/-- What is below the field. -/
def wrapped : State := Solver.below ⟨stmt 2, var "x"⟩ field

variable {ω : Type} [Weight ω] [DecidableEq ω]

/-- The run has converged, and the frame and the field each lead to themselves and to the bottom. -/
def Circles (l : Run.Listing ω) : Prop :=
  l.phase = .converged ∧
    ((l.solver? ⟨0⟩).any fun s => s.seed = creation.node ∧
      [⟨.single (var "x"), stmt 2, frame⟩, ⟨frame, stmt 2, frame⟩,
        ⟨frame, stmt 2, .bottom creation.node⟩] ⊆ s.calls.transitions ∧
      [⟨.located ⟨stmt 2, var "x"⟩, field, wrapped⟩, ⟨wrapped, field, wrapped⟩,
        ⟨wrapped, .epsilon, .bottom creation.node⟩] ⊆ s.fields.transitions) = true
  deriving Decidable

/-- The stacks are found to be unbounded. -/
theorem exists_flagged [ZeroFree ω] {weighing : Weighing ω} (hc : weighing.ZeroFree) {n : Nat}
    (h : Circles ((Run.Listing.beginForward (setting weighing) creation).advance
      (setting weighing) 0 n))
    (hflags : ∀ session r result, Session.Arises (setting weighing) session →
      session.Converges creation r result → result.FlagsUnbounded) :
    ∃ r result, (Session.start (setting weighing)).Converges creation r result ∧
      result.FlagsUnbounded ∧ result.hasRecursion = true ∧ result.hasFieldLoop = true := by
  obtain ⟨hphase, hcircles⟩ := h
  obtain ⟨_, result, hconverges, hlisted⟩ := Session.exists_converges hphase
  have hunbounded := hflags _ _ result .start hconverges
  refine ⟨_, result, hconverges, hunbounded, ?_⟩
  rw [hunbounded.calls, hunbounded.fields]
  obtain ⟨s, -, hs, -, rfl⟩ := hconverges.exists_concluded hc
  obtain ⟨s', l, hs', hl, hcircles⟩ := hlisted.exists_solver hcircles
  cases some.inj (hs.symm.trans hs')
  obtain ⟨hseed, hcalls, hfields⟩ := of_decide_eq_true hcircles
  rw [← hl.calls.transitions] at hcalls
  rw [← hl.fields.transitions] at hfields
  rw [← hseed, ← hl.seed] at hcalls hfields
  simp only [List.cons_subset] at hcalls hfields
  simp only [Run.forwardResult, Snapshot.ofSolver, Path.sorted_iff]
  -- Ways that go round often enough are as long as one likes.
  constructor
  · intro k
    refine ⟨var "x", _, ?_, .around hcalls.1 hcalls.2.1 hcalls.2.2.1 k⟩
    simp only [length_append, length_cons, List.length_replicate]
    omega
  · intro k
    refine ⟨⟨stmt 2, var "x"⟩, field :: List.replicate k field, ?_, ?_,
      .around hfields.1 hfields.2.1 hfields.2.2.1 k⟩
    · simp
    · simp [field, List.mem_replicate]

end Wrapping

/-- The method calls itself with ever more fields around the object, and both are found. -/
theorem Session.flagsUnbounded_wrapping : Wrapping.description.resolve = .ok Wrapping.program ∧
    Wrapping.creation.node.stmt ∈ Wrapping.program.statements ∧
    (∃ r result, (start (Wrapping.setting .reach)).Converges Wrapping.creation r result ∧
      result.FlagsUnbounded ∧ result.hasRecursion = true ∧ result.hasFieldLoop = true) ∧
    ∃ r result, (start (Wrapping.setting .trail)).Converges Wrapping.creation r result ∧
      result.FlagsUnbounded ∧ result.hasRecursion = true ∧ result.hasFieldLoop = true := by
  have hq : Wrapping.creation.node.stmt ∈ Wrapping.program.statements := by decide
  obtain ⟨hreach, htrail⟩ := flagsUnbounded_of_converges Wrapping.resolve_description .everything {}
    hq
  exact ⟨Wrapping.resolve_description, hq,
    Wrapping.exists_flagged (n := 115) zeroFree_reach (by decide +kernel) hreach,
    Wrapping.exists_flagged (n := 115) zeroFree_trail (by decide +kernel) htrail⟩

end DemandAlias
