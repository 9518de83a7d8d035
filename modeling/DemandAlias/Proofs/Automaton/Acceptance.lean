import DemandAlias.Automaton.Final
import DemandAlias.Proofs.Automaton.Listening

/-!
# Ways to final states

Relaxing all transitions often enough takes every way to a final state into account. After
`n` rounds, the ways of at most `n` transitions are (`covers_waysWithin`). A way that comes
to a state twice can be shortened, and what happens on it then still happens on the longer
way (`Way.exists_nodup`), so no more rounds are needed than there are states
(`accounts_waysWithin`). What all transitions and the combinations of weights keep to holds
of the weights found (`waysWithin_cases`).

Whether there is a way at all is a special case (`waysWithin_eq_zero_iff`).
-/

namespace DemandAlias.Automaton

open Std

variable {σ Λ ω κ ε : Type} [DecidableEq σ] [Hashable σ] [DecidableEq Λ] [Hashable Λ]

/-- There is a way from the state to a final one. -/
inductive Accepts (a : Automaton σ Λ ω κ) : σ → Prop
  | final {q : σ} (h : q ∈ a.final) : Accepts a q
  | step {t : Transition σ Λ} (ht : t ∈ a.transitions) (h : Accepts a t.target) :
    Accepts a t.source

variable [Weight ω]

/-- A way from a state to a final one, with the states it leaves and what happens on it from
    its end on. The weights of its transitions take that into account. -/
inductive Way (a : Automaton σ Λ ω κ) (accounts : ω → List ε → Prop) :
    σ → List σ → List ε → Prop
  | final {q : σ} (h : q ∈ a.final) : Way a accounts q [] []
  | step {t : Transition σ Λ} {qs : List σ} {es fs : List ε} (ht : t ∈ a.transitions)
      (hw : accounts (a.weight t) fs) (h : Way a accounts t.target qs es) :
    Way a accounts t.source (t.source :: qs) (es ++ fs)

section Ways

variable {a : Automaton σ Λ ω κ} {accounts : ω → List ε → Prop}
variable {q : σ} {qs : List σ} {es : List ε}

theorem Accepts.exists_way (hc : a.Consistent) (h : a.Accepts q) :
    ∃ qs, a.Way (fun w (_ : List Empty) => w ≠ zero) q qs [] := by
  induction h with
  | final hq => exact ⟨[], .final hq⟩
  | step ht _ ih =>
    obtain ⟨qs, hqs⟩ := ih
    exact ⟨_, .step ht (hc.weight_ne_zero ht) hqs⟩

theorem Way.accepts (h : a.Way accounts q qs es) : a.Accepts q := by
  induction h with
  | final hq => exact .final hq
  | step ht _ _ ih => exact .step ht ih

theorem Way.mem_states (hstates : ∀ {t}, t ∈ a.transitions → t.source ∈ a.states)
    (h : a.Way accounts q qs es) : ∀ p ∈ qs, p ∈ a.states := by
  induction h with
  | final => exact fun _ hp => nomatch hp
  | @step t _ _ _ ht _ _ ih =>
    intro p hp
    rcases mem_cons.1 hp with rfl | hp
    · exact hstates ht
    · exact ih p hp

/-- The rest of a way, from a state that it leaves. -/
theorem Way.exists_rest (h : a.Way accounts q qs es) {p : σ} (hp : p ∈ qs) :
    ∃ qs' es', qs'.Sublist qs ∧ es'.Sublist es ∧ a.Way accounts p qs' es' := by
  induction h with
  | final => cases hp
  | step ht hw h ih =>
    rcases mem_cons.1 hp with rfl | hp
    · exact ⟨_, _, .refl _, .refl _, .step ht hw h⟩
    · obtain ⟨qs', es', hqs, hes, h'⟩ := ih hp
      exact ⟨qs', es', hqs.cons _, hes.trans (List.sublist_append_left _ _), h'⟩

/-- A way need not leave a state twice. -/
theorem Way.exists_nodup (h : a.Way accounts q qs es) :
    ∃ qs' es', qs'.Nodup ∧ es'.Sublist es ∧ a.Way accounts q qs' es' := by
  induction h with
  | final hq => exact ⟨[], [], nodup_nil, .refl [], .final hq⟩
  | @step t _ _ fs ht hw _ ih =>
    obtain ⟨qs', es', hnodup, hes, h'⟩ := ih
    by_cases hback : t.source ∈ qs'
    · obtain ⟨rest, es'', hrest, hes', h''⟩ := h'.exists_rest hback
      exact ⟨rest, es'', hnodup.sublist hrest,
        (hes'.trans hes).trans (List.sublist_append_left _ fs), h''⟩
    · exact ⟨_, _, nodup_cons.2 ⟨hback, hnodup⟩, hes.append_right fs, .step ht hw h'⟩

end Ways

/-! ### One transition -/

section Relax

variable [DecidableEq ω]

omit [DecidableEq Λ] [Hashable Λ] [DecidableEq ω] in
theorem Ways.weightFrom_setFrom (d : Ways σ ω) (p q : σ) (w : ω) :
    (d.setFrom p w).weightFrom q = if p = q then w else d.weightFrom q := by
  simp [weightFrom, setFrom, HashMap.getD_insert]

/-- Takes one transition into account. -/
def relax (a : Automaton σ Λ ω κ) (x : Ways σ ω × Bool) (t : Transition σ Λ) : Ways σ ω × Bool :=
  let w := x.1.through t (a.weight t)
  if w = x.1.weightFrom t.source then x else (x.1.setFrom t.source w, true)

variable (a : Automaton σ Λ ω κ)

theorem relaxAll_eq (d : Ways σ ω) : a.relaxAll d = a.transitions.foldl a.relax (d, false) := rfl

/-- Only the weight of the ways from the source changes. -/
theorem weightFrom_relax (x : Ways σ ω × Bool) (t : Transition σ Λ) (q : σ) :
    (a.relax x t).1.weightFrom q =
      if t.source = q then x.1.through t (a.weight t) else x.1.weightFrom q := by
  unfold relax
  dsimp only
  split
  · next heq =>
    split
    · next hq => rw [heq, hq]
    · rfl
  · exact Ways.weightFrom_setFrom ..

theorem relax_cases (x : Ways σ ω × Bool) (t : Transition σ Λ) :
    a.relax x t = x ∨ (a.relax x t).2 = true := by
  unfold relax
  dsimp only
  split
  · exact .inl rfl
  · exact .inr rfl

theorem foldl_relax_cases (ts : List (Transition σ Λ)) (x : Ways σ ω × Bool) :
    ts.foldl a.relax x = x ∨ (ts.foldl a.relax x).2 = true := by
  induction ts generalizing x with
  | nil => exact .inl rfl
  | cons t _ ih =>
    rw [foldl_cons]
    rcases relax_cases a x t with heq | hchanged
    · rw [heq]
      exact ih x
    · rcases ih (a.relax x t) with heq | hchanged'
      · exact .inr (by rw [heq, hchanged])
      · exact .inr hchanged'

end Relax

/-! ### What is taken into account -/

section Accounts

variable [DecidableEq ω] {a : Automaton σ Λ ω κ} {accounts : ω → List ε → Prop}
  (ha : Weight.LaxAccounting accounts)

include ha

/-- What was taken into account stays so, and the transition is taken into account. -/
theorem accounts_relax (x : Ways σ ω × Bool) (t : Transition σ Λ) :
    (∀ {q es}, accounts (x.1.weightFrom q) es → accounts ((a.relax x t).1.weightFrom q) es) ∧
      ∀ {es fs}, accounts (x.1.weightFrom t.target) es → accounts (a.weight t) fs →
        accounts ((a.relax x t).1.weightFrom t.source) (es ++ fs) := by
  refine ⟨fun {q es} h => ?_, fun {es fs} h hw => ?_⟩
  · rw [weightFrom_relax]
    split
    · next hq =>
      subst hq
      unfold Ways.through
      dsimp only
      split
      · exact h
      · exact ha.left _ h
    · exact h
  · rw [weightFrom_relax, if_pos rfl]
    unfold Ways.through
    dsimp only
    split
    · next hzero => exact ha.of_zero _ fs (hzero ▸ h)
    · exact ha.right _ (ha.extend h hw)

theorem accounts_foldl_relax (ts : List (Transition σ Λ)) (x : Ways σ ω × Bool) :
    (∀ {q es}, accounts (x.1.weightFrom q) es →
      accounts ((ts.foldl a.relax x).1.weightFrom q) es) ∧
    ∀ t ∈ ts, ∀ {es fs}, accounts (x.1.weightFrom t.target) es → accounts (a.weight t) fs →
      accounts ((ts.foldl a.relax x).1.weightFrom t.source) (es ++ fs) := by
  induction ts generalizing x with
  | nil => exact ⟨fun h => h, fun t ht => nomatch ht⟩
  | cons u _ ih =>
    obtain ⟨hkeep, hfirst⟩ := accounts_relax ha (a := a) x u
    obtain ⟨hkeep', hrest⟩ := ih (a.relax x u)
    refine ⟨fun h => hkeep' (hkeep h), fun t ht => ?_⟩
    rcases mem_cons.1 ht with rfl | ht
    · exact fun h hw => hkeep' (hfirst h hw)
    · exact fun h hw => hrest t ht (hkeep h) hw

omit ha [DecidableEq ω] in
/-- The ways of at most `n` transitions are taken into account. -/
def Covers (a : Automaton σ Λ ω κ) (accounts : ω → List ε → Prop) (n : Nat) (d : Ways σ ω) :
    Prop :=
  ∀ q qs es, a.Way accounts q qs es → qs.length ≤ n → accounts (d.weightFrom q) es

section

variable {n : Nat} {d : Ways σ ω} (h : a.Covers accounts n d)
include h

theorem Covers.relaxAll : a.Covers accounts (n + 1) (a.relaxAll d).1 := by
  obtain ⟨hkeep, hround⟩ := accounts_foldl_relax ha (a := a) a.transitions (d, false)
  intro q qs es hway hlength
  cases hway with
  | final hq => exact hkeep (h _ _ _ (.final hq) (Nat.zero_le n))
  | step ht hw hway => exact hround _ ht (h _ _ _ hway (Nat.le_of_succ_le_succ hlength)) hw

/-- After a round in which nothing changes, all ways are taken into account. -/
theorem Covers.of_stable (hstable : (a.relaxAll d).1 = d) (m : Nat) :
    a.Covers accounts (n + m) d := by
  induction m with
  | zero => exact h
  | succ m ih => exact hstable ▸ Covers.relaxAll ha ih

theorem covers_waysWithin {m : Nat} : a.Covers accounts (n + m) (a.waysWithin m d) := by
  induction m generalizing n d with
  | zero => exact h
  | succ m ih =>
    have hround := Covers.relaxAll ha h
    rw [waysWithin]
    rcases foldl_relax_cases a a.transitions (d, false) with hsame | hchanged
    · rw [relaxAll_eq, hsame]
      exact Covers.of_stable ha h (by rw [relaxAll_eq, hsame]) (m + 1)
    · rw [relaxAll_eq] at hround ⊢
      dsimp only
      rw [if_pos hchanged, Nat.add_succ, ← Nat.succ_add]
      exact ih hround

end

omit ha [DecidableEq Λ] [Hashable Λ] [DecidableEq ω] in
theorem weightFrom_foldl_setFrom (qs : List σ) (d : Ways σ ω) (q : σ) :
    (qs.foldl (fun d s => d.setFrom s one) d).weightFrom q =
      if q ∈ qs then one else d.weightFrom q := by
  induction qs generalizing d with
  | nil => rfl
  | cons s qs ih =>
    rw [foldl_cons, ih, Ways.weightFrom_setFrom]
    by_cases hq : q ∈ qs
    · rw [if_pos hq, if_pos (mem_cons_of_mem _ hq)]
    · by_cases heq : s = q
      · simp [heq]
      · simp [hq, heq, Ne.symm heq]

omit ha [DecidableEq ω] in
theorem weightFrom_startWays (a : Automaton σ Λ ω κ) (q : σ) : a.startWays.weightFrom q =
    if q ∈ a.final.toList then one else zero :=
  (weightFrom_foldl_setFrom a.final.toList {} q).trans (by simp [Ways.weightFrom])

section

variable (hstates : ∀ {t}, t ∈ a.transitions → t.source ∈ a.states) {q : σ} {qs : List σ}
  {es : List ε} (h : a.Way accounts q qs es)
include hstates h

/-- All ways to final states are taken into account when there were as many rounds as there are
    states. -/
theorem accounts_waysWithin {n : Nat} (hn : a.states.size ≤ n) :
    accounts ((a.waysWithin n a.startWays).weightFrom q) es := by
  have hstart : a.Covers accounts 0 a.startWays := by
    intro q qs es hway hlength
    cases hway with
    | final hq =>
      rw [weightFrom_startWays, if_pos (show q ∈ a.final.toList from hq)]
      exact ha.one
    | step => cases hlength
  obtain ⟨qs', es', hnodup, hes, h'⟩ := h.exists_nodup
  have hlength : qs'.length ≤ a.states.size :=
    hnodup.length_le_of_subset fun p hp => h'.mem_states hstates p hp
  exact ha.skip hes (covers_waysWithin ha hstart _ _ _ h' (by omega))

theorem accounts_waysToFinal : accounts (a.waysToFinal.weightFrom q) es :=
  accounts_waysWithin ha hstates h (Nat.le_succ _)

end

end Accounts

/-! ### What is found -/

section Found

variable [DecidableEq ω] [ZeroCombine ω] {a : Automaton σ Λ ω κ}

/-- Of all ways known that are not zero, `found` holds. -/
def Ways.All (found : σ → ω → Prop) (d : Ways σ ω) : Prop :=
  ∀ q, d.weightFrom q = zero ∨ found q (d.weightFrom q)

section All

variable {found : σ → ω → Prop}
  (hstep : ∀ {t w}, t ∈ a.transitions → w ≠ zero → found t.target w →
    found t.source (extend w (a.weight t)))
  (hcombine : ∀ {q v w}, found q v → found q w → found q (combine v w))

include hstep hcombine

theorem all_relax {x : Ways σ ω × Bool} (hx : x.1.All found) {t : Transition σ Λ}
    (ht : t ∈ a.transitions) : (a.relax x t).1.All found := by
  intro q
  rw [weightFrom_relax]
  split
  · next hq =>
    subst hq
    simp only [Ways.through]
    split
    · exact hx t.source
    · next hrest =>
      have hfound := hstep ht hrest ((hx t.target).resolve_left hrest)
      rcases hx t.source with hzero | hknown
      · rw [hzero, ZeroCombine.zero_combine]
        exact .inr hfound
      · exact .inr (hcombine hknown hfound)
  · exact hx q

theorem all_foldl_relax {ts : List (Transition σ Λ)} (hts : ∀ t ∈ ts, t ∈ a.transitions)
    {x : Ways σ ω × Bool} (hx : x.1.All found) : (ts.foldl a.relax x).1.All found := by
  induction ts generalizing x with
  | nil => exact hx
  | cons t _ ih =>
    exact ih (fun u hu => hts u (mem_cons_of_mem _ hu))
      (all_relax hstep hcombine hx (hts t mem_cons_self))

theorem all_waysWithin (n : Nat) {d : Ways σ ω} (hd : d.All found) :
    (a.waysWithin n d).All found := by
  induction n generalizing d with
  | zero => exact hd
  | succ n ih =>
    have hnext : (a.transitions.foldl a.relax (d, false)).1.All found :=
      all_foldl_relax hstep hcombine (fun _ ht => ht) hd
    rw [waysWithin, relaxAll_eq]
    dsimp only
    split
    · exact ih hnext
    · exact hnext

end All

section

variable (found : σ → ω → Prop) (hfinal : ∀ {q}, q ∈ a.final → found q one)
  (hstep : ∀ {t w}, t ∈ a.transitions → w ≠ zero → found t.target w → found t.source
    (extend w (a.weight t)))
  (hcombine : ∀ {q v w}, found q v → found q w → found q (combine v w))
include found hfinal hstep hcombine

/-- What holds of the way that stays at a final state, is kept by the transitions and by
    combining, holds of all ways found. -/
theorem waysWithin_cases (n : Nat) : (a.waysWithin n a.startWays).All found := by
  refine all_waysWithin hstep hcombine n fun q => ?_
  rw [weightFrom_startWays]
  split
  · next hq => exact .inr (hfinal hq)
  · exact .inl rfl

theorem waysToFinal_cases : a.waysToFinal.All found :=
  waysWithin_cases found hfinal hstep hcombine _

end

variable [ZeroFree ω]

/-- The states from which a way is found are those from which there is one. -/
theorem waysWithin_eq_zero_iff (hc : a.Consistent) {n : Nat} (hn : a.states.size ≤ n) (q : σ) :
    (a.waysWithin n a.startWays).weightFrom q = zero ↔ ¬a.Accepts q := by
  constructor
  · intro hzero haccepts
    obtain ⟨qs, hway⟩ := haccepts.exists_way hc
    exact accounts_waysWithin Weight.accounting_ne_zero.toLaxAccounting hc.source_mem_states hway
      hn hzero
  · exact (waysWithin_cases (fun q _ => a.Accepts q) .final (fun ht _ h => .step ht h)
      (fun h _ => h) n q).resolve_right

theorem waysToFinal_eq_zero_iff (hc : a.Consistent) (q : σ) :
    a.waysToFinal.weightFrom q = zero ↔ ¬a.Accepts q :=
  waysWithin_eq_zero_iff hc (Nat.le_succ _) q

/-- The transitions found on ways to final states are those that lead to a state from
    which there is one, with the weight of the ways from there extended by their own. -/
theorem mem_transitionsToFinal_iff (hc : a.Consistent) (t : Transition σ Λ) (w : ω) :
    (t, w) ∈ a.transitionsToFinal ↔ t ∈ a.transitions ∧ a.Accepts t.target ∧
      w = extend (a.waysToFinal.weightFrom t.target) (a.weight t) := by
  have hzero := waysToFinal_eq_zero_iff hc t.target
  simp only [transitionsToFinal, mem_filterMap]
  constructor
  · rintro ⟨u, hu, hw⟩
    split at hw
    · cases hw
    · next hne =>
      cases hw
      exact ⟨hu, Classical.not_not.1 fun hn => hne (hzero.2 hn), rfl⟩
  · rintro ⟨ht, haccepts, rfl⟩
    exact ⟨t, ht, if_neg fun heq => hzero.1 heq haccepts⟩

end Found

end DemandAlias.Automaton
