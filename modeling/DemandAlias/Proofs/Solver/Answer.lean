import DemandAlias.Proofs.Automaton.Acceptance
import DemandAlias.Proofs.Solver.Invariant
import DemandAlias.Solver.Answer

/-!
# What a solver reports

The nodes a solver reports are those reached by a transition from which the bottom of the
stack of calls can be reached (`mem_nodeWeights_iff`), and of them those that hold the
tracked object itself (`holdsDirectly_iff`). The weight of a node takes every such way into
account (`accounts_nodeWeights`), and nothing else (`nodeWeights_cases`).
-/

namespace DemandAlias.Solver

open Std

section Weights

variable {ω ε : Type} [Weight ω] {s : Solver ω}

theorem getElem?_combineAt (m : HashMap Node ω) (n n' : Node) (w : ω) :
    (combineAt m n w)[n']? =
      if n = n' then some (match m[n']? with
        | some old => combine old w
        | none => w)
      else m[n']? := by
  rw [combineAt, HashMap.getElem?_alter]
  by_cases h : n = n'
  · subst h
    cases m[n]? <;> simp
  · simp [h]

/-- Adds the node of a transition, if the solver has reached it. -/
def noteWeight (s : Solver ω) (m : HashMap Node ω) (x : Transition State Statement × ω) :
    HashMap Node ω :=
  match x.1.source with
  | .single v => if s.reached.contains ⟨x.1.label, v⟩ then combineAt m ⟨x.1.label, v⟩ x.2 else m
  | _ => m

theorem nodeWeights_eq [DecidableEq ω] (s : Solver ω) :
    s.nodeWeights = s.calls.transitionsToFinal.foldl s.noteWeight ∅ := rfl

/-- Only a transition at a node that was reached is noted, and nothing else changes. -/
theorem noteWeight_cases (m : HashMap Node ω) (t : Transition State Statement) (w : ω) :
    s.noteWeight m (t, w) = m ∧ (∀ n q, n ∈ s.reached → t ≠ callAt n q) ∨
      ∃ n q, n ∈ s.reached ∧ t = callAt n q ∧ s.noteWeight m (t, w) = combineAt m n w := by
  obtain ⟨source, label, target⟩ := t
  cases source with
  | single v =>
    simp only [noteWeight]
    split
    · next hreached =>
      exact .inr ⟨⟨label, v⟩, target, (OrderedSet.contains_iff _ _).1 hreached, rfl, rfl⟩
    · next hreached =>
      refine .inl ⟨rfl, fun ⟨stmt, var⟩ q hn heq => hreached ?_⟩
      cases heq
      exact (OrderedSet.contains_iff _ _).2 hn
  | located _ | generated _ _ => exact .inl ⟨rfl, fun _ _ _ heq => nomatch heq⟩

section Accounts

variable {accounts : ω → List ε → Prop} (ha : Weight.Accounting accounts) {n : Node}
  {es : List ε}

include ha

theorem accounts_combineAt (m : HashMap Node ω) (n' : Node) (w : ω)
    (h : ∃ v, m[n]? = some v ∧ accounts v es) :
    ∃ v, (combineAt m n' w)[n]? = some v ∧ accounts v es := by
  obtain ⟨v, hv, hes⟩ := h
  rw [getElem?_combineAt, hv]
  split
  · exact ⟨_, rfl, ha.left w hes⟩
  · exact ⟨v, rfl, hes⟩

theorem accounts_combineAt_self (m : HashMap Node ω) {w : ω} (hw : accounts w es) :
    ∃ v, (combineAt m n w)[n]? = some v ∧ accounts v es := by
  rw [getElem?_combineAt, if_pos rfl]
  cases m[n]? with
  | some old => exact ⟨_, rfl, ha.right old hw⟩
  | none => exact ⟨w, rfl, hw⟩

theorem accounts_foldl_noteWeight (xs : List (Transition State Statement × ω))
    (m : HashMap Node ω)
    (h : (∃ v, m[n]? = some v ∧ accounts v es) ∨
      ∃ q w, n ∈ s.reached ∧ (callAt n q, w) ∈ xs ∧ accounts w es) :
    ∃ v, (xs.foldl s.noteWeight m)[n]? = some v ∧ accounts v es := by
  induction xs generalizing m with
  | nil =>
    rcases h with h | ⟨q, w, -, hmem, -⟩
    · exact h
    · cases hmem
  | cons x _ ih =>
    obtain ⟨t, u⟩ := x
    rw [foldl_cons]
    apply ih
    rcases noteWeight_cases (s := s) m t u with ⟨heq, hother⟩ | ⟨n', q', -, rfl, heq⟩
    · rw [heq]
      rcases h with h | ⟨q, w, hn, hmem, hw⟩
      · exact .inl h
      · rcases mem_cons.1 hmem with hsame | hmem
        · exact absurd (congrArg Prod.fst hsame).symm (hother n q hn)
        · exact .inr ⟨q, w, hn, hmem, hw⟩
    · rw [heq]
      rcases h with h | ⟨q, w, hn, hmem, hw⟩
      · exact .inl (accounts_combineAt ha m n' u h)
      · rcases mem_cons.1 hmem with hsame | hmem
        · obtain ⟨stmt, var⟩ := n
          obtain ⟨stmt', var'⟩ := n'
          cases hsame
          exact .inl (accounts_combineAt_self ha m hw)
        · exact .inr ⟨q, w, hn, hmem, hw⟩

variable [DecidableEq ω] [ZeroFree ω] [ZeroCombine ω]

/-- The weight of a node takes every way into account that ends at a bottom. -/
theorem accounts_nodeWeights (hc : s.calls.Consistent) {q : State} {qs : List State}
    (fs : List ε) (hn : n ∈ s.reached) (ht : callAt n q ∈ s.calls.transitions)
    (hw : accounts (s.calls.weight (callAt n q)) fs) (hway : s.calls.Way accounts q qs es) :
    ∃ w, s.nodeWeights[n]? = some w ∧ accounts w (es ++ fs) := by
  rw [nodeWeights_eq]
  refine accounts_foldl_noteWeight ha _ ∅ (.inr ⟨q, _, hn, ?_,
    ha.extend (Automaton.accounts_waysToFinal ha.toLaxAccounting hc.source_mem_states hway) hw⟩)
  exact (Automaton.mem_transitionsToFinal_iff hc _ _).2 ⟨ht, hway.accepts, rfl⟩

end Accounts

theorem foldl_noteWeight_cases {found : Node → ω → Prop}
    (hcombine : ∀ {n v w}, found n v → found n w → found n (combine v w))
    (xs : List (Transition State Statement × ω)) (m : HashMap Node ω)
    (hm : ∀ n w, m[n]? = some w → found n w)
    (hxs : ∀ n q w, n ∈ s.reached → (callAt n q, w) ∈ xs → found n w) (n : Node) (w : ω)
    (h : (xs.foldl s.noteWeight m)[n]? = some w) : found n w := by
  induction xs generalizing m with
  | nil => exact hm n w h
  | cons x _ ih =>
    obtain ⟨t, u⟩ := x
    refine ih _ (fun n v hv => ?_) (fun n q v hn hmem => hxs n q v hn (mem_cons_of_mem _ hmem))
      h
    rcases noteWeight_cases (s := s) m t u with ⟨heq, -⟩ | ⟨n', q', hn', rfl, heq⟩
    · exact hm n v (heq ▸ hv)
    · have hu : found n' u := hxs n' q' u hn' mem_cons_self
      rw [heq, getElem?_combineAt] at hv
      split at hv
      · next hsame =>
        subst hsame
        cases hv
        split
        · next old hold => exact hcombine (hm n' old hold) hu
        · exact hu
      · exact hm n v hv

variable [DecidableEq ω] [ZeroFree ω] [ZeroCombine ω]

/-- What holds of the ways to each node and is kept by combining holds of its weight. -/
theorem nodeWeights_cases (found : Node → ω → Prop) (hc : s.calls.Consistent)
    (hcombine : ∀ {n v w}, found n v → found n w → found n (combine v w))
    (hfound : ∀ {n q}, n ∈ s.reached → callAt n q ∈ s.calls.transitions → s.calls.Accepts q →
      found n (extend (s.calls.waysToFinal.weightFrom q) (s.calls.weight (callAt n q))))
    {n : Node} {w : ω} (h : s.nodeWeights[n]? = some w) : found n w := by
  rw [nodeWeights_eq] at h
  refine foldl_noteWeight_cases hcombine _ ∅ (fun n w hw => ?_) (fun n q w hn hmem => ?_) n w h
  · simp at hw
  · obtain ⟨ht, haccepts, rfl⟩ := (Automaton.mem_transitionsToFinal_iff hc _ _).1 hmem
    exact hfound hn ht haccepts

/-- The nodes with weights are those reached with a stack of calls. -/
theorem mem_nodeWeights_iff (h : s.calls.Consistent) (n : Node) :
    n ∈ s.nodeWeights ↔ n ∈ s.reached ∧
      ∃ q, callAt n q ∈ s.calls.transitions ∧ s.calls.Accepts q := by
  rw [HashMap.mem_iff_isSome_getElem?]
  constructor
  · intro hsome
    obtain ⟨w, hw⟩ := isSome_iff_exists.1 hsome
    exact nodeWeights_cases (fun n _ => n ∈ s.reached ∧
      ∃ q, callAt n q ∈ s.calls.transitions ∧ s.calls.Accepts q) h (fun hv _ => hv)
      (fun hn ht haccepts => ⟨hn, _, ht, haccepts⟩) hw
  · rintro ⟨hn, q, ht, haccepts⟩
    obtain ⟨qs, hway⟩ := haccepts.exists_way h
    obtain ⟨w, hw, -⟩ := accounts_nodeWeights Weight.accounting_ne_zero h [] hn ht
      (h.weight_ne_zero ht) hway
    rw [hw]
    rfl

/-- If all transitions lead from other states to the bottom, the weight of a node is that of
    its transition. -/
theorem nodeWeights_of_flat (hc : s.calls.Consistent) (hbottom : s.bottom ∈ s.calls.final)
    (hflat : ∀ t ∈ s.calls.transitions, t.target = s.bottom ∧ t.source ≠ s.bottom)
    (hone : combine (one : ω) one = one) {n : Node} {v w : ω}
    (hn : n ∈ s.reached) (hw : s.calls.weight? (callAt n s.bottom) = some w)
    (hv : extend one w = v) (hcombine : combine v v = v) :
    s.nodeWeights[n]? = some v := by
  have ht : callAt n s.bottom ∈ s.calls.transitions :=
    (hc.mem_transitions_iff _).2 (by rw [hw]; rfl)
  have haccepts : s.calls.Accepts s.bottom := .final hbottom
  have hways : s.calls.waysToFinal.weightFrom s.bottom = one := by
    have hcases := Automaton.waysToFinal_cases (a := s.calls)
      (fun q w => q = s.bottom → w = one) (fun _ _ => rfl)
      (fun ht _ _ hsource => absurd hsource (hflat _ ht).2)
      (fun hv hw hq => by rw [hv hq, hw hq, hone]) s.bottom
    exact (hcases.resolve_left fun hzero =>
      (Automaton.waysToFinal_eq_zero_iff hc _).1 hzero haccepts) rfl
  obtain ⟨u, hu⟩ := isSome_iff_exists.1
    (HashMap.mem_iff_isSome_getElem?.1 ((mem_nodeWeights_iff hc n).2 ⟨hn, _, ht, haccepts⟩))
  rw [hu, nodeWeights_cases (fun n' u => n' = n → u = v) hc
    (fun hv' hw' heq => by rw [hv' heq, hw' heq, hcombine]) ?_ hu rfl]
  rintro n' q - hq - rfl
  obtain rfl : q = s.bottom := (hflat _ hq).1
  rw [hways, Automaton.weight, hw]
  exact hv

end Weights

/-! ### Access paths -/

section Paths

variable {ω : Type} {s : Solver ω}

theorem holdsDirectly_iff (h : s.fields.Consistent) (n : Node) :
    s.holdsDirectly n = true ↔ ∃ p, fieldAt n .epsilon p ∈ s.fields.transitions := by
  simp only [holdsDirectly, any_eq_true, beq_iff_eq, h.mem_transitionsOf_iff]
  constructor
  · rintro ⟨⟨source, label, target⟩, ⟨ht, htopic⟩, rfl⟩
    simp only [Transition.topics, mem_cons, Topic.out.injEq, reduceCtorEq,
      not_mem_nil, or_false] at htopic
    subst htopic
    exact ⟨target, ht⟩
  · rintro ⟨p, hp⟩
    exact ⟨_, ⟨hp, Transition.out_mem_topics _⟩, rfl⟩

theorem nil_mem_stacksFrom_iff (qs : List State) (limit : Nat) :
    [] ∈ s.stacksFrom qs limit ↔ s.endsAt qs = true := by
  cases limit with
  | zero => simp [stacksFrom]
  | succ =>
    simp only [stacksFrom]
    split
    · next hends => simp [hends]
    · next hends => simp [hends]

/-- The access paths at a statement begin with locals that were reached there. -/
theorem mem_accessPathsAt_iff (stmt : Statement) (path : AccessPath) :
    path ∈ s.accessPathsAt stmt ↔ ⟨stmt, path.base⟩ ∈ s.reached ∧
      path.fields ∈ s.stacksFrom [.located ⟨stmt, path.base⟩] maxPathLength := by
  simp only [accessPathsAt, mem_sortedUnique, mem_flatMap, mem_filter, beq_iff_eq, mem_map]
  constructor
  · rintro ⟨⟨stmt', var⟩, ⟨hn, rfl⟩, fields, hfields, rfl⟩
    exact ⟨hn, hfields⟩
  · rintro ⟨hn, hfields⟩
    exact ⟨⟨stmt, path.base⟩, ⟨hn, rfl⟩, path.fields, hfields, rfl⟩

/-- A local is an access path if it holds the object itself. -/
theorem endsAt_located_iff (h : s.fields.Consistent) (n : Node) :
    s.endsAt [.located n] = true ↔
      ∃ q, q.isBottom = true ∧ fieldAt n .epsilon q ∈ s.fields.transitions := by
  simp only [endsAt, List.any_cons, List.any_nil, Bool.or_false, any_eq_true,
    h.mem_transitionsOf_iff, and_eq_true, beq_iff_eq]
  constructor
  · rintro ⟨⟨source, label, target⟩, ⟨ht, htopic⟩, rfl, hbottom⟩
    simp only [Transition.topics, mem_cons, Topic.out.injEq, reduceCtorEq,
      not_mem_nil, or_false] at htopic
    subst htopic
    exact ⟨target, hbottom, ht⟩
  · rintro ⟨q, hbottom, ht⟩
    exact ⟨_, ⟨ht, Transition.out_mem_topics _⟩, rfl, hbottom⟩

end Paths

end DemandAlias.Solver
