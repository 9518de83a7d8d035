import DemandAlias.Proofs.Automaton.Ways
import DemandAlias.Proofs.Trail
import DemandAlias.Proofs.Verdict
import Mathlib.Algebra.Order.BigOperators.Group.List
import Mathlib.Data.List.Flatten

/-!
# When trails settle

Trails are no weights whose ways can be combined in any order, as extending does not distribute
over combining: a branch that some ways come by and others do not is forgotten, and then known
again when all of them go one way later on. So the rounds that are enough for all ways to be
taken into account (`Automaton.accounts_waysWithin`) may not be enough for nothing to change any
more. The nodes of trails do not change then, but outcomes may be withdrawn, and a withdrawal
takes as many rounds to get around as a way.

What is known of one branch (`Trail.verdict`) changes on its own, and at each state at most
twice: when a way is found, and when an outcome is withdrawn. In a round in which it does not
change at any state it has settled, so after two rounds for each state it has
(`Automaton.quiet_iterate`). That is so for all branches at once, and trails have settled then
(`Automaton.stable_waysWithin`).

The rounds that are made are only about half of these, and may stop while an outcome is still
known at some states that is withdrawn at others (`Automaton.unsettled_withdrawing`). What is
found so far is right but for outcomes that are yet to be withdrawn
(`Automaton.settles_replay`).
-/

namespace DemandAlias

/-! ### Rounds -/

namespace Automaton

variable {σ Λ ω κ : Type} [DecidableEq σ] [Hashable σ] [DecidableEq Λ] [Hashable Λ]
  {d : Ways σ Trail}

section Rounds

variable [Weight ω] [DecidableEq ω]

/-- The ways known after one more round. -/
def sweep (a : Automaton σ Λ ω κ) (d : Ways σ ω) : Ways σ ω := (a.relaxAll d).1

/-- What each transition keeps is kept by a round. -/
theorem sweep_induction {a : Automaton σ Λ ω κ} {P : Ways σ ω → Prop}
    (hrelax : ∀ x, P x.1 → ∀ t ∈ a.transitions, P (a.relax x t).1) {d : Ways σ ω} (hd : P d) :
    P (a.sweep d) := by
  rw [sweep, relaxAll_eq]
  exact List.foldlRecOn (motive := fun x => P x.1) a.transitions a.relax (b := (d, false)) hd hrelax

/-- It does not matter whether rounds are left out when nothing changes any more. -/
theorem waysWithin_eq_iterate (a : Automaton σ Λ ω κ) (n : Nat) (d : Ways σ ω) :
    a.waysWithin n d = a.sweep^[n] d := by
  induction n generalizing d with
  | zero => rfl
  | succ n ih =>
    rw [waysWithin, Function.iterate_succ_apply, sweep]
    rcases foldl_relax_cases a a.transitions (d, false) with hsame | hchanged
    · -- This round is the last one, as those left out would not change anything either.
      have hsweep : a.sweep d = d := by rw [sweep, relaxAll_eq, hsame]
      rw [relaxAll_eq, hsame]
      exact (Function.iterate_fixed hsweep n).symm
    · rw [relaxAll_eq]
      dsimp only
      rw [if_pos hchanged]
      exact ih _

/-- No transition leads to anything new. -/
def Stable (a : Automaton σ Λ ω κ) (d : Ways σ ω) : Prop :=
  ∀ t ∈ a.transitions, d.through t (a.weight t) = d.weightFrom t.source

theorem Stable.sweep_eq {a : Automaton σ Λ ω κ} {d : Ways σ ω} (h : a.Stable d) :
    a.sweep d = d := by
  refine sweep_induction (P := (· = d)) (fun x hx t ht => ?_) rfl
  have hsame : x.1.through t (a.weight t) = x.1.weightFrom t.source := hx.symm ▸ h t ht
  rw [relax, if_pos hsame]
  exact hx

end Rounds

/-! ### Rounds of verdicts -/

section Verdicts

variable {a : Automaton σ Λ Trail κ} {k : Node}

/-- What is known of the branch on the ways from each state. -/
def judge (k : Node) (d : Ways σ Trail) (q : σ) : Verdict := (d.weightFrom q).verdict k

/-- What is known of the branch from the source of the transition on, when the ways that begin
    with it are taken into account. -/
def rejudge (a : Automaton σ Λ Trail κ) (k : Node) (f : σ → Verdict) (t : Transition σ Λ) :
    Verdict :=
  combine (f t.source) (extend (f t.target) ((a.weight t).verdict k))

omit [DecidableEq Λ] [Hashable Λ] in
theorem through_eq (d : Ways σ Trail) (t : Transition σ Λ) (w : Trail) :
    d.through t w = combine (d.weightFrom t.source) (extend (d.weightFrom t.target) w) := by
  unfold Ways.through
  dsimp only
  split
  · next hzero =>
    rw [hzero]
    cases d.weightFrom t.source <;> rfl
  · rfl

theorem judge_relax (x : Ways σ Trail × Bool) (t : Transition σ Λ) :
    judge k (a.relax x t).1 = Function.update (judge k x.1) t.source
      (a.rejudge k (judge k x.1) t) := by
  funext q
  rw [judge, weightFrom_relax, Function.update_apply]
  by_cases hq : t.source = q
  · rw [if_pos hq, if_pos hq.symm, through_eq, Trail.verdict_combine, Trail.verdict_extend]
    rfl
  · rw [if_neg hq, if_neg (Ne.symm hq)]
    rfl

/-- No transition tells anything new of the branch. -/
def Quiet (a : Automaton σ Λ Trail κ) (k : Node) (f : σ → Verdict) : Prop :=
  ∀ t ∈ a.transitions, a.rejudge k f t = f t.source

theorem Quiet.judge_sweep (h : a.Quiet k (judge k d)) :
    judge k (a.sweep d) = judge k d := by
  refine sweep_induction (P := fun x => judge k x = judge k d) (fun x hx t ht => ?_) rfl
  rw [judge_relax, hx, h t ht, Function.update_eq_self]

/-- How often verdicts may still change, at all states together. -/
def changesLeft (a : Automaton σ Λ Trail κ) (f : σ → Verdict) : Nat :=
  (a.states.toList.map fun q => (f q).rank).sum

theorem changesLeft_le (f : σ → Verdict) : a.changesLeft f ≤ 2 * a.states.size := by
  refine (List.sum_le_card_nsmul _ 2 (List.forall_mem_map.2 fun q _ => (f q).rank_le_two)).trans ?_
  rw [List.length_map, nsmul_eq_mul, Nat.mul_comm]
  exact Nat.le_refl _

/-- A transition tells nothing new of the branch, or leaves less to change. -/
theorem judge_relax_cases {t : Transition σ Λ} (hsource : t.source ∈ a.states)
    (x : Ways σ Trail × Bool) :
    judge k (a.relax x t).1 = judge k x.1 ∧ a.rejudge k (judge k x.1) t = judge k x.1 t.source ∨
      a.changesLeft (judge k (a.relax x t).1) < a.changesLeft (judge k x.1) := by
  rw [judge_relax]
  rcases Verdict.combine_cases (judge k x.1 t.source)
    (extend (judge k x.1 t.target) ((a.weight t).verdict k)) with hsame | hlower
  · have hsame : a.rejudge k (judge k x.1) t = judge k x.1 t.source := hsame
    exact .inl ⟨by rw [hsame, Function.update_eq_self], hsame⟩
  · have hlower : (a.rejudge k (judge k x.1) t).rank < (judge k x.1 t.source).rank := hlower
    refine .inr (List.sum_lt_sum _ _ (fun q _ => ?_) ⟨t.source, hsource, ?_⟩)
    · by_cases hq : q = t.source
      · rw [hq, Function.update_self]
        exact hlower.le
      · rw [Function.update_of_ne hq]
    · rwa [Function.update_self]

/-- After a round the branch has settled, or there is less to change. -/
theorem quiet_or_lt (hstates : ∀ {t}, t ∈ a.transitions → t.source ∈ a.states) (d : Ways σ Trail) :
    a.Quiet k (judge k d) ∨ a.changesLeft (judge k (a.sweep d)) < a.changesLeft (judge k d) := by
  -- The first transition that tells something new leaves less to change, and no later one adds to
  -- it again. If there is none, all of them see the verdicts from before the round.
  have hfold : ∀ (ts : List (Transition σ Λ)) x, (∀ t ∈ ts, t ∈ a.transitions) →
      judge k (ts.foldl a.relax x).1 = judge k x.1 ∧
          (∀ t ∈ ts, a.rejudge k (judge k x.1) t = judge k x.1 t.source) ∨
        a.changesLeft (judge k (ts.foldl a.relax x).1) < a.changesLeft (judge k x.1) := by
    intro ts
    induction ts with
    | nil => exact fun x _ => .inl ⟨rfl, fun _ ht => nomatch ht⟩
    | cons t _ ih =>
      intro x hts
      have hrest := ih (a.relax x t) fun u hu => hts u (mem_cons_of_mem _ hu)
      rw [foldl_cons]
      rcases judge_relax_cases (hstates (hts t mem_cons_self)) x with ⟨hsame, ht⟩ | hlower
      · rw [hsame] at hrest
        refine hrest.imp_left fun ⟨hsame', hts'⟩ => ⟨hsame', ?_⟩
        exact forall_mem_cons.2 ⟨ht, hts'⟩
      · rcases hrest with ⟨hsame', -⟩ | hlower'
        · exact .inr (hsame' ▸ hlower)
        · exact .inr (hlower'.trans hlower)
  exact (hfold a.transitions (d, false) fun _ ht => ht).imp_left And.right

/-- After as many rounds as there may be changes, the branch has settled. -/
theorem quiet_iterate (hstates : ∀ {t}, t ∈ a.transitions → t.source ∈ a.states) {n : Nat}
    (hn : a.changesLeft (judge k d) ≤ n) :
    a.Quiet k (judge k (a.sweep^[n] d)) := by
  induction n generalizing d with
  | zero => exact (quiet_or_lt hstates d).resolve_right (by omega)
  | succ n ih =>
    rw [Function.iterate_succ_apply]
    rcases quiet_or_lt (k := k) hstates d with hquiet | hlower
    · -- Once quiet, it stays so.
      have hkeep : ∀ m, judge k (a.sweep^[m] d) = judge k d := fun m => by
        induction m with
        | zero => rfl
        | succ m ihm =>
          rw [Function.iterate_succ_apply', Quiet.judge_sweep (ihm.symm ▸ hquiet), ihm]
      rw [← Function.iterate_succ_apply, hkeep]
      exact hquiet
    · exact ih (by omega)

/-- If there was a way before a round, an outcome known after it was known already. -/
theorem judge_sweep_of_ne_noWay {q : σ} (hq : judge k d q ≠ .noWay) :
    judge k (a.sweep d) q ≠ .noWay ∧
      ∀ o, judge k (a.sweep d) q = .known o → judge k d q = .known o := by
  refine sweep_induction (P := fun x => judge k x q ≠ .noWay ∧
    ∀ o, judge k x q = .known o → judge k d q = .known o) (fun x hx t _ => ?_) ⟨hq, fun _ h => h⟩
  obtain ⟨hne, hknown⟩ := hx
  rw [judge_relax, Function.update_apply]
  split
  · next heq =>
    subst heq
    obtain ⟨hne', hsame⟩ := Verdict.combine_of_ne_noWay hne
      (extend (judge k x.1 t.target) ((a.weight t).verdict k))
    exact ⟨hne', fun o ho => hknown o (hsame o ho)⟩
  · exact ⟨hne, hknown⟩

end Verdicts

end Automaton

/-! ### Nodes -/

namespace Trail

/-- The trail takes a way into account whose transitions, from its end on, have these weights:
    its nodes count no later than theirs, and a branch that it knows goes as one of them says. -/
def Heeds (w : Trail) (ws : List Trail) : Prop :=
  w ≠ .zero ∧ NoLater w.nodes (ws.flatMap nodes) ∧ ∀ k b, w.Shows k b → ∃ v ∈ ws, v.Shows k b

theorem noLater_nodes_combine (v w : Trail) (hv : v ≠ .zero) (hw : w ≠ .zero) :
    NoLater (combine v w).nodes v.nodes ∧ NoLater (combine v w).nodes w.nodes := by
  cases v with
  | zero => exact absurd rfl hv
  | path ns =>
    cases w with
    | zero => exact absurd rfl hw
    | path ms => exact ⟨shorter_noLater_left ns ms, shorter_noLater_right ns ms⟩

theorem accounting_heeds : Weight.Accounting Heeds where
  ne_zero h := h.1
  one := ⟨nofun, .inl rfl, fun _ _ ⟨_, ho, _⟩ => nomatch ho⟩
  extend {v w vs ws} := by
    rintro ⟨hv, hvnodes, hvs⟩ ⟨hw, hwnodes, hws⟩
    refine ⟨ZeroFree.extend_ne_zero hv hw, ?_, fun k b h => ?_⟩
    · rw [nodes_extend hv hw, List.flatMap_append]
      exact hvnodes.append hwnodes
    · rcases shows_of_extend h with h | h
      · exact (hvs k b h).imp fun _ hmem => hmem.imp_left (mem_append_left _)
      · exact (hws k b h).imp fun _ hmem => hmem.imp_left (mem_append_right _)
  left {v vs} w := by
    rintro ⟨hv, hnodes, hshows⟩
    refine ⟨ZeroFree.combine_ne_zero hv, ?_, fun k b h => hshows k b (shows_left_of_combine hv h)⟩
    by_cases hw : w = .zero
    · rw [hw, show combine v .zero = v by cases v <;> rfl]
      exact hnodes
    · exact (noLater_nodes_combine v w hv hw).1.trans hnodes
  right v w ws := by
    rintro ⟨hw, hnodes, hshows⟩
    refine ⟨ZeroFree.combine_ne_zero_right v hw, ?_,
      fun k b h => hshows k b (shows_right_of_combine hw h)⟩
    by_cases hv : v = .zero
    · rw [hv, show combine .zero w = w from ZeroCombine.zero_combine w]
      exact hnodes
    · exact (noLater_nodes_combine v w hv hw).2.trans hnodes
  skip hsub h := by
    refine ⟨h.1, h.2.1.trans (noLater_of_sublist (hsub.flatMap _)), fun k b hb => ?_⟩
    exact (h.2.2 k b hb).imp fun _ hv => hv.imp_left (hsub.subset ·)

theorem nodes_combine_of_noLater {v w : Trail} (hv : v ≠ .zero) (hw : w ≠ .zero)
    (h : NoLater v.nodes w.nodes) : (combine v w).nodes = v.nodes := by
  cases v with
  | zero => exact absurd rfl hv
  | path =>
    cases w with
    | zero => exact absurd rfl hw
    | path => exact shorter_eq_left h

end Trail

namespace Automaton

variable {σ Λ κ : Type} [DecidableEq σ] [Hashable σ] [DecidableEq Λ] [Hashable Λ]
  {a : Automaton σ Λ Trail κ} {d : Ways σ Trail} {k : Node}

/-- The nodes of a way, those of the last transition first. -/
def wayNodes (a : Automaton σ Λ Trail κ) (ts : List (Transition σ Λ)) : List Node :=
  (ts.reverse.map a.weight).flatMap Trail.nodes

theorem wayNodes_cons (t : Transition σ Λ) (ts : List (Transition σ Λ)) :
    a.wayNodes (t :: ts) = a.wayNodes ts ++ (a.weight t).nodes := by
  simp [wayNodes]

section Rounds

variable (hc : a.Consistent) {n : Nat} (hn : a.states.size ≤ n)

include hc hn

/-- After enough rounds, all ways are taken into account. -/
theorem heeds_waysWithin {q : σ} {ts : List (Transition σ Λ)} (h : a.IsWay q ts) :
    ((a.waysWithin n a.startWays).weightFrom q).Heeds (ts.reverse.map a.weight) :=
  accounts_waysWithin Trail.accounting_heeds.toLaxAccounting hc.source_mem_states
    (h.way fun ht => ⟨hc.weight_ne_zero ht, .inl (by simp),
      fun _ _ h => ⟨_, mem_singleton_self _, h⟩⟩) hn

omit hn in
/-- The nodes known from a state are those of a way. -/
theorem exists_wayNodes {q : σ}
    (hq : (a.waysWithin n a.startWays).weightFrom q ≠ .zero) :
    ∃ ts, a.IsWay q ts ∧ ((a.waysWithin n a.startWays).weightFrom q).nodes = a.wayNodes ts := by
  refine (waysWithin_cases (a := a) (fun q w => ∃ ts, a.IsWay q ts ∧ w.nodes = a.wayNodes ts)
    ?_ ?_ ?_ n q).resolve_left hq
  · exact fun hq => ⟨[], .final hq, rfl⟩
  · rintro t w ht hw ⟨ts, hts, hnodes⟩
    exact ⟨t :: ts, .step ht hts, by
      rw [Trail.nodes_extend hw (hc.weight_ne_zero ht), wayNodes_cons, hnodes]⟩
  · rintro q v w ⟨vs, hvs, hv⟩ ⟨ws, hws, hw⟩
    rcases Trail.nodes_combine v w with heq | heq
    · exact ⟨vs, hvs, heq.trans hv⟩
    · exact ⟨ws, hws, heq.trans hw⟩

/-- After enough rounds the nodes do not change any more. -/
theorem nodes_waysWithin {m : Nat} (hm : a.states.size ≤ m) (q : σ) :
    ((a.waysWithin n a.startWays).weightFrom q).nodes =
      ((a.waysWithin m a.startWays).weightFrom q).nodes := by
  have hzero := (waysWithin_eq_zero_iff hc hn q).trans (waysWithin_eq_zero_iff hc hm q).symm
  by_cases hq : (a.waysWithin n a.startWays).weightFrom q = .zero
  · rw [hq, show (a.waysWithin m a.startWays).weightFrom q = .zero from hzero.1 hq]
  · obtain ⟨ts, hts, hnodes⟩ := exists_wayNodes hc hq
    obtain ⟨ts', hts', hnodes'⟩ := exists_wayNodes hc (mt hzero.2 hq)
    have hle := (heeds_waysWithin hc hn hts').2.1
    have hle' := (heeds_waysWithin hc hm hts).2.1
    rw [← wayNodes, ← hnodes'] at hle
    rw [← wayNodes, ← hnodes] at hle'
    exact hle.antisymm hle'

end Rounds

/-! ### Trails -/

/-- After two rounds for each state, nothing changes any more. -/
theorem stable_waysWithin (hc : a.Consistent) {n : Nat} (hn : 2 * a.states.size ≤ n) :
    a.Stable (a.waysWithin n a.startWays) := by
  intro t ht
  by_cases htarget : (a.waysWithin n a.startWays).weightFrom t.target = .zero
  · exact if_pos htarget
  · have hweight := hc.weight_ne_zero ht
    -- The ways that begin with `t` do not count before those known from its source.
    obtain ⟨ts, hts, hnodes⟩ := exists_wayNodes hc htarget
    obtain ⟨hsource, hle, -⟩ := heeds_waysWithin hc (by omega : a.states.size ≤ n) (.step ht hts)
    rw [← wayNodes, wayNodes_cons, ← hnodes] at hle
    rw [through_eq]
    refine Trail.ext_verdict ?_ fun k => ?_
    · refine Trail.nodes_combine_of_noLater hsource (ZeroFree.extend_ne_zero htarget hweight) ?_
      rwa [Trail.nodes_extend htarget hweight]
    · have hquiet := quiet_iterate (k := k) hc.source_mem_states
        ((changesLeft_le (a := a) (judge k a.startWays)).trans hn) t ht
      rw [← waysWithin_eq_iterate] at hquiet
      rw [Trail.verdict_combine, Trail.verdict_extend]
      exact hquiet

/-- If there is a way, more rounds only withdraw outcomes. -/
theorem mem_conditions_of_iterate {q : σ} (hq : d.weightFrom q ≠ .zero) {m : Nat} {o : Outcome}
    (h : (k, o) ∈ ((a.sweep^[m] d).weightFrom q).conditions) :
    (k, o) ∈ (d.weightFrom q).conditions := by
  have hmore : judge k (a.sweep^[m] d) q ≠ .noWay ∧
      (judge k (a.sweep^[m] d) q = .known o → judge k d q = .known o) := by
    clear h
    induction m with
    | zero => exact ⟨mt Trail.verdict_eq_noWay_iff.1 hq, fun h => h⟩
    | succ m ih =>
      rw [Function.iterate_succ_apply']
      obtain ⟨hne, hknown⟩ := judge_sweep_of_ne_noWay (a := a) ih.1
      exact ⟨hne, fun h => ih.2 (hknown o h)⟩
  exact Trail.verdict_eq_known_iff.1 (hmore.2 (Trail.verdict_eq_known_iff.2 h))

/-- What the trails of all ways to final states settle to, and what is found of them. -/
structure Settles (a : Automaton σ Λ Trail κ) (settled : σ → Trail) : Prop where
  /-- Two rounds for each state are enough. -/
  rounds : ∀ n, 2 * a.states.size ≤ n → ∀ q, (a.waysWithin n a.startWays).weightFrom q = settled q
  /-- No transition leads to anything new then. -/
  stable : ∀ t ∈ a.transitions, settled t.target ≠ .zero →
    combine (settled t.source) (extend (settled t.target) (a.weight t)) = settled t.source
  /-- A way is found where there is one, -/
  zero_iff : ∀ q, a.waysToFinal.weightFrom q = .zero ↔ settled q = .zero
  /-- with the right nodes, -/
  nodes : ∀ q, (a.waysToFinal.weightFrom q).nodes = (settled q).nodes
  /-- and with all outcomes known in the end, though some may be yet to be withdrawn. -/
  conditions : ∀ q k o, (k, o) ∈ (settled q).conditions →
    (k, o) ∈ (a.waysToFinal.weightFrom q).conditions
  /-- Of a transition on a way to a final state, a branch is known to go this way only if it
      does so on all ways that begin with the transition. -/
  shown : ∀ t w, (t, w) ∈ a.transitionsToFinal → ∀ ts, a.IsWay t.target ts →
    ∀ k b, w.Shows k b → ∃ u ∈ t :: ts, (a.weight u).Shows k b

/-- Whatever is done with an automaton, the trails of its ways to final states settle. The rounds
    that are made find them but for outcomes that are yet to be withdrawn. -/
theorem settles_replay (ops : List (Operation σ Λ Trail κ)) :
    ∃ settled, (replay ops).automaton.Settles settled := by
  have hc := consistent_replay ops
  generalize (replay ops).automaton = a at hc
  have hstable := stable_waysWithin hc (Nat.le_refl _)
  have hrounds : ∀ n, 2 * a.states.size ≤ n →
      a.waysWithin n a.startWays = a.waysWithin (2 * a.states.size) a.startWays := by
    intro n hn
    obtain ⟨m, rfl⟩ := Nat.exists_eq_add_of_le' hn
    rw [waysWithin_eq_iterate, Function.iterate_add_apply, ← waysWithin_eq_iterate a (2 * _)]
    exact Function.iterate_fixed hstable.sweep_eq m
  have hsettled := hrounds (2 * a.states.size + 1) (Nat.le_succ _)
  refine ⟨(a.waysWithin (2 * a.states.size) a.startWays).weightFrom,
    fun n hn q => by rw [hrounds n hn], fun t ht htarget => ?_, fun q => ?_, fun q => ?_,
    fun q k o h => ?_, fun t w hw ts hts k b hshows => ?_⟩
  · rw [← through_eq]
    exact hstable t ht
  · exact (waysToFinal_eq_zero_iff hc q).trans (waysWithin_eq_zero_iff hc (by omega) q).symm
  · exact nodes_waysWithin hc (Nat.le_succ _) (by omega) q
  · by_cases hq : a.waysToFinal.weightFrom q = .zero
    · have hzero : (a.waysWithin (2 * a.states.size) a.startWays).weightFrom q = .zero :=
        (waysWithin_eq_zero_iff hc (by omega) q).2 ((waysToFinal_eq_zero_iff hc q).1 hq)
      rw [hzero] at h
      cases h
    · refine mem_conditions_of_iterate (a := a) (m := a.states.size) hq ?_
      rw [waysToFinal, waysWithin_eq_iterate, ← Function.iterate_add_apply, ← waysWithin_eq_iterate,
        show a.states.size + (a.states.size + 1) = 2 * a.states.size + 1 by omega, hsettled]
      exact h
  · obtain ⟨ht, -, rfl⟩ := (mem_transitionsToFinal_iff hc t w).1 hw
    rcases Trail.shows_of_extend hshows with hrest | hfirst
    · obtain ⟨v, hv, hshows⟩ := (heeds_waysWithin hc (Nat.le_succ _) hts).2.2 k b hrest
      obtain ⟨u, hu, rfl⟩ := mem_map.1 hv
      exact ⟨u, mem_cons_of_mem _ (mem_reverse.1 hu), hshows⟩
    · exact ⟨t, mem_cons_self, hfirst⟩

/-! ### An outcome that is withdrawn too late -/

/-- The verdict at a state by a table of verdicts, the latest first. -/
def listed (table : List (σ × Verdict)) (q : σ) : Verdict := (table.lookup q).getD .noWay

omit [Hashable σ] in
theorem update_listed (table : List (σ × Verdict)) (q : σ) (v : Verdict) :
    Function.update (listed table) q v = listed ((q, v) :: table) := by
  funext p
  rw [Function.update_apply, listed, listed, List.lookup_cons]
  by_cases h : p = q
  · rw [if_pos h, h, beq_self_eq_true]
    rfl
  · rw [if_neg h, beq_false_of_ne h]

/-- One more round, with the verdicts of the transitions given. -/
def tabulate (ts : List (Transition σ Λ × Verdict)) (table : List (σ × Verdict)) :
    List (σ × Verdict) :=
  ts.foldl (fun table (t, v) => (t.source, combine (listed table t.source)
    (extend (listed table t.target) v)) :: table) table

theorem judge_sweep_of_listed {table : List (σ × Verdict)} (h : judge k d = listed table) :
    judge k (a.sweep d) =
      listed (tabulate (a.transitions.map fun t => (t, (a.weight t).verdict k)) table) := by
  have hfold : ∀ (ts : List (Transition σ Λ)) x table, judge k x.1 = listed table →
      judge k (ts.foldl a.relax x).1 =
        listed (tabulate (ts.map fun t => (t, (a.weight t).verdict k)) table) := by
    intro ts
    induction ts with
    | nil => exact fun x table hx => hx
    | cons _ _ ih =>
      intro x table hx
      refine ih _ _ ?_
      rw [judge_relax, hx, update_listed]
      rfl
  exact hfold a.transitions (d, false) table h

theorem judge_iterate_of_listed {table : List (σ × Verdict)} (h : judge k d = listed table)
    (n : Nat) : judge k (a.sweep^[n] d) =
      listed ((tabulate (a.transitions.map fun t => (t, (a.weight t).verdict k)))^[n] table) := by
  induction n with
  | zero => exact h
  | succ n ih =>
    rw [Function.iterate_succ_apply', Function.iterate_succ_apply']
    exact judge_sweep_of_listed ih

/-- The local `x` at a place. -/
def place (index : Nat) : Node := ⟨⟨⟨"Main.main"⟩, index, .nop⟩, ⟨⟨"Main.main"⟩, "x"⟩⟩

/-- A way to the final state `0` on which the branch at place `9` goes to its target, and a circle
    on which it does not. The transitions come in the order in which the way leaves them. -/
def withdrawing : List (Operation Nat Nat Trail Unit) :=
  [.addFinal 0, .add ⟨5, 0, 4⟩ (.step (place 5)), .add ⟨4, 0, 3⟩ (.step (place 4)),
    .add ⟨3, 0, 2⟩ (.step (place 3)), .add ⟨2, 0, 1⟩ (.step (place 2)),
    .add ⟨1, 0, 5⟩ (.branch (place 1) (place 9) .skipped),
    .add ⟨1, 1, 0⟩ (.branch (place 0) (place 9) .taken)]

/-- The verdicts of the transitions. -/
def withdrawn : List (Transition Nat Nat × Verdict) :=
  [(⟨5, 0, 4⟩, .unknown), (⟨4, 0, 3⟩, .unknown), (⟨3, 0, 2⟩, .unknown), (⟨2, 0, 1⟩, .unknown),
    (⟨1, 0, 5⟩, .known .skipped), (⟨1, 1, 0⟩, .known .taken)]

theorem verdicts_withdrawing : ((replay withdrawing).automaton.transitions.map fun t =>
    (t, ((replay withdrawing).automaton.weight t).verdict (place 9))) = withdrawn := by
  rw [transitions_replay]
  simp only [weight, weight?_replay]
  decide

theorem size_withdrawing : (replay withdrawing).automaton.states.size = 6 := by
  have hlength : (replay withdrawing).automaton.states.toList.length = 6 := by
    rw [toList_states_replay]
    decide
  rwa [OrderedSet.toList, Array.length_toList] at hlength

theorem judge_startWays_withdrawing :
    judge (place 9) (replay withdrawing).automaton.startWays = listed [(0, .unknown)] := by
  have hfinal : ∀ q, q ∈ (replay withdrawing).automaton.final.toList ↔ q = 0 := fun q => by
    simp only [replay, withdrawing, foldl_cons, foldl_nil, History.perform, final_add]
    exact (OrderedSet.mem_insert ..).trans (or_iff_left not_mem_nil)
  funext q
  rw [judge, weightFrom_startWays, listed, List.lookup_cons]
  by_cases hq : q = 0
  · rw [if_pos ((hfinal q).2 hq), hq]
    rfl
  · rw [if_neg (mt (hfinal q).1 hq), beq_false_of_ne hq]
    rfl

theorem judge_withdrawing (n : Nat) : judge (place 9) ((replay withdrawing).automaton.waysWithin n
    (replay withdrawing).automaton.startWays) =
      listed ((tabulate withdrawn)^[n] [(0, .unknown)]) := by
  rw [waysWithin_eq_iterate, judge_iterate_of_listed judge_startWays_withdrawing,
    verdicts_withdrawing]

/-- The seven rounds for six states stop while the outcome, withdrawn at state `3`, is still known
    at state `4` and on the way from there on that begins with the transition from state `5`. -/
theorem unsettled_withdrawing :
    (∃ t ∈ (replay withdrawing).automaton.transitions,
      (replay withdrawing).automaton.waysToFinal.weightFrom t.target ≠ .zero ∧
        combine ((replay withdrawing).automaton.waysToFinal.weightFrom t.source)
            (extend ((replay withdrawing).automaton.waysToFinal.weightFrom t.target)
              ((replay withdrawing).automaton.weight t)) ≠
          (replay withdrawing).automaton.waysToFinal.weightFrom t.source) ∧
      ∃ w, (⟨5, 0, 4⟩, w) ∈ (replay withdrawing).automaton.transitionsToFinal ∧
        (place 9, .taken) ∈ w.conditions := by
  have hwithin : judge (place 9) (replay withdrawing).automaton.waysToFinal =
      listed ((tabulate withdrawn)^[7] [(0, .unknown)]) := by
    rw [waysToFinal, size_withdrawing]
    exact judge_withdrawing 7
  have hsource : judge (place 9) (replay withdrawing).automaton.waysToFinal 4 = .known .taken := by
    rw [hwithin]
    decide
  have htarget : judge (place 9) (replay withdrawing).automaton.waysToFinal 3 = .unknown := by
    rw [hwithin]
    decide
  have hlisted : ∀ {t v}, (t, v) ∈ withdrawn → t ∈ (replay withdrawing).automaton.transitions ∧
      ((replay withdrawing).automaton.weight t).verdict (place 9) = v := by
    intro t v h
    rw [← verdicts_withdrawing] at h
    obtain ⟨u, hu, heq⟩ := mem_map.1 h
    cases heq
    exact ⟨hu, rfl⟩
  constructor
  · obtain ⟨hmem, hverdict⟩ := hlisted (t := ⟨4, 0, 3⟩) (v := .unknown) (by decide)
    refine ⟨_, hmem, fun hzero => ?_, fun heq => ?_⟩
    · rw [← Trail.verdict_eq_noWay_iff (k := place 9), ← judge, htarget] at hzero
      cases hzero
    · have heq := congrArg (Trail.verdict (place 9)) heq
      rw [Trail.verdict_combine, Trail.verdict_extend, hverdict, ← judge, ← judge, hsource,
        htarget] at heq
      cases heq
  · obtain ⟨hmem, hverdict⟩ := hlisted (t := ⟨5, 0, 4⟩) (v := .unknown) (by decide)
    have hne : (replay withdrawing).automaton.waysToFinal.weightFrom 4 ≠ .zero := fun hzero => by
      rw [← Trail.verdict_eq_noWay_iff (k := place 9), ← judge, hsource] at hzero
      cases hzero
    have hc := consistent_replay withdrawing
    have haccepts := Classical.not_not.1 (mt (waysToFinal_eq_zero_iff hc 4).2 hne)
    refine ⟨_, (mem_transitionsToFinal_iff hc _ _).2 ⟨hmem, haccepts, rfl⟩, ?_⟩
    rw [← Trail.verdict_eq_known_iff, Trail.verdict_extend, hverdict, ← judge, hsource]
    rfl

/-- In the end the outcome is known nowhere but at the branch. -/
theorem settles_withdrawing : ∃ settled, (replay withdrawing).automaton.Settles settled ∧
    settled 4 ≠ .zero ∧ (place 9, .taken) ∉ (settled 4).conditions := by
  obtain ⟨settled, hsettles⟩ := settles_replay withdrawing
  have hunknown : (settled 4).verdict (place 9) = .unknown := by
    rw [← hsettles.rounds 12 (by rw [size_withdrawing]), ← judge, judge_withdrawing]
    decide
  refine ⟨settled, hsettles, fun hzero => ?_, fun hmem => ?_⟩
  · rw [← Trail.verdict_eq_noWay_iff (k := place 9), hunknown] at hzero
    cases hzero
  · rw [← Trail.verdict_eq_known_iff, hunknown] at hmem
    cases hmem

end Automaton

end DemandAlias
