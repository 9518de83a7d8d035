import DemandAlias.Proofs.Automaton.Acceptance
import DemandAlias.Proofs.Automaton.Replay
import Mathlib.Algebra.Tropical.Basic
import Mathlib.Data.ENat.Basic

/-!
# Weights of all ways

From a state there may be ways of any length to a final one. If the way that does nothing is as
good as any other (`BoundedWeight`), going round in a circle on a way adds nothing to its
weight: a way makes up for all those on which more transitions are taken
(`Weight.absorbs_extendAll`). So finitely many ways make up for all of them, and the
combination of their weights is the only one that does (`Automaton.Merges.unique`). It is what
relaxing the transitions finds (`Automaton.merges_waysToFinal`), and it decides which
transitions are on a way to a final state and how much these weigh
(`Automaton.transitionsToFinal_replay`).
-/

namespace DemandAlias

open LawfulWeight (combine_assoc one_extend combine_self combine_comm zero_combine combine_extend
  zero_extend extend_one)

/-- Weights for which the way that does nothing is as good as any other. -/
class BoundedWeight (ω : Type) [Weight ω] : Prop extends LawfulWeight ω where
  one_combine : ∀ a : ω, combine one a = one

/-! ### Weights along a way -/

namespace Weight

variable {ω : Type} [Weight ω]

/-- The weights along a way, extended one by the other. -/
def extendAll (ws : List ω) : ω := ws.foldl extend one

/-- Combining with the second weight adds nothing to the first. -/
def Absorbs (v w : ω) : Prop := combine v w = v

section Lawful

variable [LawfulWeight ω]

theorem extendAll_append (vs ws : List ω) :
    extendAll (vs ++ ws) = extend (extendAll vs) (extendAll ws) := by
  have hfold : ∀ v : ω, ws.foldl extend v = extend v (extendAll ws) := by
    induction ws with
    | nil => exact fun v => (extend_one v).symm
    | cons w _ ih =>
      intro v
      rw [extendAll, foldl_cons, foldl_cons, ih, ih (extend one w),
        one_extend, LawfulWeight.extend_assoc]
  rw [extendAll, foldl_append, hfold, ← extendAll]

theorem extendAll_singleton (w : ω) : extendAll [w] = w := one_extend w

theorem extendAll_cons (w : ω) (ws : List ω) :
    extendAll (w :: ws) = extend w (extendAll ws) := by
  rw [← List.singleton_append, extendAll_append, extendAll_singleton]

theorem Absorbs.refl (v : ω) : Absorbs v v := combine_self v

theorem Absorbs.trans {u v w : ω} (h : Absorbs u v) (h' : Absorbs v w) : Absorbs u w :=
  calc combine u w = combine (combine u v) w := by rw [h]
    _ = combine u v := by rw [combine_assoc, h']
    _ = u := h

theorem Absorbs.antisymm {v w : ω} (h : Absorbs v w) (h' : Absorbs w v) : v = w := by
  rw [← h, combine_comm, h']

theorem absorbs_zero (v : ω) : Absorbs v zero := combine_zero v

theorem Absorbs.eq_zero {w : ω} (h : Absorbs zero w) : w = zero := by
  rw [← zero_combine w, h]

theorem absorbs_combine_left (u v : ω) : Absorbs (combine u v) u := by
  rw [Absorbs, combine_comm, ← combine_assoc, combine_self]

theorem absorbs_combine_right (u v : ω) : Absorbs (combine u v) v := by
  rw [Absorbs, combine_assoc, combine_self]

theorem Absorbs.extend_left (u : ω) {v w : ω} (h : Absorbs v w) :
    Absorbs (extend u v) (extend u w) := by
  rw [Absorbs, ← LawfulWeight.extend_combine, h]

theorem Absorbs.extend_right {v w : ω} (h : Absorbs v w) (u : ω) :
    Absorbs (extend v u) (extend w u) := by
  rw [Absorbs, ← combine_extend, h]

/-- What makes up for each of some weights makes up for their combination. -/
theorem absorbs_foldr {v : ω} {ws : List ω} (h : ∀ w ∈ ws, Absorbs v w) :
    Absorbs v (ws.foldr combine zero) := by
  induction ws with
  | nil => exact absorbs_zero v
  | cons w _ ih =>
    have hw : Absorbs v w := h w mem_cons_self
    have hws := ih fun u hu => h u (mem_cons_of_mem _ hu)
    rw [List.foldr_cons, Absorbs, ← combine_assoc, hw, hws]

end Lawful

section Bounded

variable [BoundedWeight ω]

/-- What comes first adds nothing to what makes up for the rest. -/
theorem absorbs_extend (v w : ω) : Absorbs w (extend v w) := by
  have h : Absorbs (extend one w) (extend v w) :=
    Absorbs.extend_right (BoundedWeight.one_combine v) w
  rwa [one_extend] at h

/-- A way makes up for all those on which more is done. -/
theorem absorbs_extendAll {vs ws : List ω} (h : vs.Sublist ws) :
    Absorbs (extendAll vs) (extendAll ws) := by
  induction h with
  | slnil => exact .refl _
  | cons w _ ih =>
    rw [extendAll_cons]
    exact ih.trans (absorbs_extend w _)
  | cons_cons w _ ih =>
    rw [extendAll_cons, extendAll_cons]
    exact ih.extend_left w

/-- A weight accounts for the ways that it makes up for. -/
theorem laxAccounting_absorbs :
    LaxAccounting fun (v : ω) (ws : List ω) => Absorbs v (extendAll ws) where
  of_zero {vs} v ws h := by
    rw [extendAll_append, h.eq_zero, zero_extend]
    exact absorbs_zero v
  one := .refl _
  extend {u v us vs} hu hv := by
    rw [extendAll_append]
    exact (hu.extend_right v).trans (hv.extend_left _)
  left {u us} v hu := (absorbs_combine_left u v).trans hu
  right u {v vs} hv := (absorbs_combine_right u v).trans hv
  skip hsub h := h.trans (absorbs_extendAll hsub)

end Bounded

end Weight

/-! ### Ways -/

namespace Automaton

variable {σ Λ ω κ : Type} [DecidableEq σ] [Hashable σ] [DecidableEq Λ] [Hashable Λ]

/-- The transitions lead, one after the other, from the state to a final one. -/
inductive IsWay (a : Automaton σ Λ ω κ) : σ → List (Transition σ Λ) → Prop
  | final {q : σ} (h : q ∈ a.final) : IsWay a q []
  | step {t : Transition σ Λ} {ts : List (Transition σ Λ)} (ht : t ∈ a.transitions)
      (h : IsWay a t.target ts) : IsWay a t.source (t :: ts)

variable [Weight ω]

/-- The weight of a way: the way that does nothing, extended by the weights of the transitions,
    the last one first. -/
def wayWeight (a : Automaton σ Λ ω κ) (ts : List (Transition σ Λ)) : ω :=
  Weight.extendAll (ts.reverse.map a.weight)

/-- The weight is the combination of all ways from the state to a final one, however many there
    are: it combines the weights of finitely many, and makes up for all of them. -/
structure Merges (a : Automaton σ Λ ω κ) (q : σ) (w : ω) : Prop where
  absorbs : ∀ ts, a.IsWay q ts → Weight.Absorbs w (a.wayWeight ts)
  combines : ∃ ways : List (List (Transition σ Λ)), (∀ ts ∈ ways, a.IsWay q ts) ∧
    w = (ways.map a.wayWeight).foldr combine zero

theorem wayWeight_cons [LawfulWeight ω] (a : Automaton σ Λ ω κ) (t : Transition σ Λ)
    (ts : List (Transition σ Λ)) :
    a.wayWeight (t :: ts) = extend (a.wayWeight ts) (a.weight t) := by
  rw [wayWeight, List.reverse_cons, map_append, Weight.extendAll_append]
  exact congrArg _ (Weight.extendAll_singleton _)

section Lawful

variable [LawfulWeight ω] {a : Automaton σ Λ ω κ}

/-- There is only one combination of all ways. -/
theorem Merges.unique {q : σ} {v w : ω} (hv : a.Merges q v) (hw : a.Merges q w) : v = w := by
  have habsorbs : ∀ {v w}, a.Merges q v → a.Merges q w → Weight.Absorbs v w := by
    intro v w hv hw
    obtain ⟨ways, hways, rfl⟩ := hw.combines
    exact Weight.absorbs_foldr (List.forall_mem_map.2 fun ts hts => hv.absorbs ts (hways ts hts))
  exact (habsorbs hv hw).antisymm (habsorbs hw hv)

/-- Ways that begin with a transition weigh, all together, what they weigh from its target on,
    extended by the transition. -/
theorem foldr_wayWeight_cons (t : Transition σ Λ) (ways : List (List (Transition σ Λ))) :
    ((ways.map (t :: ·)).map a.wayWeight).foldr combine zero =
      extend ((ways.map a.wayWeight).foldr combine zero) (a.weight t) := by
  induction ways with
  | nil => exact (zero_extend _).symm
  | cons _ _ ih =>
    simp only [map_cons, List.foldr_cons, wayWeight_cons, combine_extend, ih]

theorem foldr_combine_append (vs ws : List ω) : (vs ++ ws).foldr combine zero =
    combine (vs.foldr combine zero)
      (ws.foldr combine zero) := by
  induction vs with
  | nil => exact (zero_combine _).symm
  | cons _ _ ih => rw [cons_append, List.foldr_cons, ih, ← combine_assoc]; rfl

end Lawful

theorem IsWay.way {a : Automaton σ Λ ω κ} {accounts : ω → List ω → Prop}
    (hself : ∀ {t}, t ∈ a.transitions → accounts (a.weight t) [a.weight t]) {q : σ}
    {ts : List (Transition σ Λ)} (h : a.IsWay q ts) :
    a.Way accounts q (ts.map Transition.source) (ts.reverse.map a.weight) := by
  induction h with
  | final hq => exact .final hq
  | @step _ _ ht _ ih =>
    rw [List.reverse_cons, map_append]
    exact .step ht (hself ht) ih

variable [DecidableEq ω] [BoundedWeight ω] {a : Automaton σ Λ ω κ}

/-- Relaxing the transitions finds the combination of all ways. -/
theorem merges_waysToFinal (hstates : ∀ {t}, t ∈ a.transitions → t.source ∈ a.states) (q : σ) :
    a.Merges q (a.waysToFinal.weightFrom q) where
  absorbs _ hts := accounts_waysToFinal Weight.laxAccounting_absorbs hstates <| hts.way fun _ => by
    rw [Weight.extendAll_singleton]
    exact .refl _
  combines := by
    have hfound := waysToFinal_cases (a := a) (fun q w => ∃ ways : List (List (Transition σ Λ)),
      (∀ ts ∈ ways, a.IsWay q ts) ∧ w = (ways.map a.wayWeight).foldr combine zero) ?_ ?_ ?_ q
    · rcases hfound with hzero | hfound
      · exact ⟨[], fun ts hts => (nomatch hts), hzero⟩
      · exact hfound
    · intro q hq
      exact ⟨[[]], by simpa using IsWay.final hq, (Weight.combine_zero _).symm⟩
    · rintro t _ ht - ⟨ways, hways, rfl⟩
      refine ⟨ways.map (t :: ·), ?_, (foldr_wayWeight_cons t ways).symm⟩
      exact List.forall_mem_map.2 fun ts hts => .step ht (hways ts hts)
    · rintro q _ _ ⟨vs, hvs, rfl⟩ ⟨ws, hws, rfl⟩
      refine ⟨vs ++ ws, ?_, by rw [map_append, foldr_combine_append]⟩
      exact fun ts hts => (mem_append.1 hts).elim (hvs ts) (hws ts)

omit [DecidableEq ω] in
/-- Weights that make up for each transition followed by the weight at its target make up for
    all ways. -/
theorem IsWay.absorbs_of_closed {bound : σ → ω}
    (hfinal : ∀ q ∈ a.final, Weight.Absorbs (bound q) one)
    (hstep : ∀ t ∈ a.transitions,
      Weight.Absorbs (bound t.source) (extend (bound t.target) (a.weight t)))
    {q : σ} {ts : List (Transition σ Λ)} (h : a.IsWay q ts) :
    Weight.Absorbs (bound q) (a.wayWeight ts) := by
  induction h with
  | final hq => exact hfinal _ hq
  | @step t _ ht _ ih =>
    rw [wayWeight_cons]
    exact (hstep t ht).trans (ih.extend_right _)

omit [BoundedWeight ω] in
theorem transitionsToFinal_eq (a : Automaton σ Λ ω κ) : a.transitionsToFinal =
    (a.transitions.filter fun t => a.waysToFinal.weightFrom t.target ≠ zero).map fun t =>
      (t, extend (a.waysToFinal.weightFrom t.target) (a.weight t)) := by
  unfold transitionsToFinal
  induction a.transitions with
  | nil => rfl
  | cons t _ ih =>
    by_cases h : a.waysToFinal.weightFrom t.target = zero
    · simpa [h] using ih
    · simpa [h] using ih

/-- Whatever is done with an automaton, from each of its states there is one combination of all
    ways to final states. The transitions listed are those to a state where it is not zero, each
    once and in the order in which they came first, with its extension by the transition. -/
theorem transitionsToFinal_replay (ops : List (Operation σ Λ ω κ)) :
    (arrivals ops).Nodup ∧ ∃ best : σ → ω,
      (∀ q w, (replay ops).automaton.Merges q w ↔ w = best q) ∧
        (replay ops).automaton.transitionsToFinal =
          ((arrivals ops).filter fun t => best t.target ≠ zero).map fun t =>
            (t, extend (best t.target) ((replay ops).automaton.weight t)) := by
  have hmerges := merges_waysToFinal (a := (replay ops).automaton) source_mem_states_replay
  refine ⟨nodup_eraseDups _, (replay ops).automaton.waysToFinal.weightFrom, fun q w => ?_, ?_⟩
  · exact ⟨fun h => h.unique (hmerges q), fun h => h ▸ hmerges q⟩
  · rw [transitionsToFinal_eq, transitions_replay]

end Automaton

/-! ### Lengths -/

/-- Natural numbers as lengths of ways: the shortest counts, and lengths along a way add up. -/
instance tropicalWeight : Weight (Tropical ℕ∞) where
  one := 1
  zero := 0
  combine := (· + ·)
  extend := (· * ·)

instance tropicalBounded : BoundedWeight (Tropical ℕ∞) where
  combine_assoc := add_assoc
  combine_comm := add_comm
  combine_self := Tropical.add_self
  zero_combine := zero_add
  extend_assoc := mul_assoc
  one_extend := one_mul
  extend_one := mul_one
  zero_extend := zero_mul
  extend_zero := mul_zero
  extend_combine := mul_add
  combine_extend := add_mul
  one_combine w := Tropical.add_eq_left (show (0 : ℕ∞) ≤ Tropical.untrop w from bot_le)

namespace Automaton

open Tropical

/-- Two ways from state `0`, the one of more transitions the shorter, and a circle between `0`
    and `1`. From state `3` there is no way. -/
def detour : List (Operation Nat Nat (Tropical ℕ∞) Unit) :=
  [.addFinal 2, .add ⟨0, 0, 1⟩ (trop 3), .add ⟨1, 0, 2⟩ (trop 1), .add ⟨1, 1, 0⟩ (trop 1),
    .add ⟨0, 1, 2⟩ (trop 5), .add ⟨3, 0, 3⟩ (trop 1)]

/-- The lengths of the shortest ways. -/
def detourLength (q : Nat) : Tropical ℕ∞ :=
  if q = 0 then trop 4 else if q = 1 then trop 1 else if q = 2 then 1 else 0

theorem mem_final_detour (q : Nat) : q ∈ (replay detour).automaton.final ↔ q = 2 := by
  simp only [replay, detour, foldl_cons, foldl_nil, History.perform, final_add]
  exact (OrderedSet.mem_insert ..).trans (or_iff_left not_mem_nil)

theorem merges_detour (q : Nat) : (replay detour).automaton.Merges q (detourLength q) where
  absorbs ts hts := by
    refine hts.absorbs_of_closed (fun q hq => ?_) fun t ht => ?_
    · obtain rfl := (mem_final_detour q).1 hq
      exact .refl _
    · have hclosed : ∀ t ∈ arrivals detour, combine (detourLength t.source)
          (extend (detourLength t.target)
            ((Weight.combineAll? (weightsAdded detour t)).getD zero)) =
          detourLength t.source := by decide
      rw [transitions_replay] at ht
      rw [weight, weight?_replay]
      exact hclosed t ht
  combines := by
    have hlast : (replay detour).automaton.IsWay 2 [] := .final ((mem_final_detour 2).2 rfl)
    have hshort : (replay detour).automaton.IsWay 1 [⟨1, 0, 2⟩] :=
      .step (t := ⟨1, 0, 2⟩) (by rw [transitions_replay]; decide) hlast
    have hlong : (replay detour).automaton.IsWay 0 [⟨0, 0, 1⟩, ⟨1, 0, 2⟩] :=
      .step (t := ⟨0, 0, 1⟩) (by rw [transitions_replay]; decide) hshort
    obtain rfl | rfl | rfl | hq : q = 0 ∨ q = 1 ∨ q = 2 ∨ 3 ≤ q := by omega
    · refine ⟨_, forall_mem_singleton.2 hlong, ?_⟩
      simp only [map_cons, List.map_nil, wayWeight_cons, weight, weight?_replay]
      decide
    · refine ⟨_, forall_mem_singleton.2 hshort, ?_⟩
      simp only [map_cons, List.map_nil, wayWeight_cons, weight, weight?_replay]
      decide
    · exact ⟨_, forall_mem_singleton.2 hlast, rfl⟩
    · refine ⟨[], fun ts hts => absurd hts not_mem_nil, ?_⟩
      rw [detourLength, if_neg (by omega), if_neg (by omega), if_neg (by omega)]
      rfl

/-- The circle adds nothing, and the transition to the final state that is longer than the way
    round is listed with its own length. -/
theorem transitionsToFinal_detour : (replay detour).automaton.transitionsToFinal =
    [(⟨0, 0, 1⟩, trop 4), (⟨1, 0, 2⟩, trop 1), (⟨1, 1, 0⟩, trop 5), (⟨0, 1, 2⟩, trop 5)] := by
  obtain ⟨-, best, hbest, hlist⟩ := transitionsToFinal_replay detour
  have hlength : best = detourLength := funext fun q => ((hbest q _).1 (merges_detour q)).symm
  rw [hlist, hlength]
  simp only [weight, weight?_replay]
  decide

end Automaton

end DemandAlias
