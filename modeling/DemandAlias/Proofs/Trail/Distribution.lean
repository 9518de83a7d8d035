import DemandAlias.Proofs.Trail.Laws
import DemandAlias.Proofs.Verdict

/-!
# Merging early and merging late

Ways that have a part in common can be combined before they are extended by it, or after. The
nodes come out the same (`Trail.nodes_extend_combine`), but the outcomes need not. Where two ways
have different outcomes of a branch, nothing is known of it once they are combined, so if the part
they have in common goes one way there, that is what is known then. When it is put to each of them
first, the branch goes both ways on one of them, and this is not forgotten.

* `Verdict.extend_combine_cases`: for one branch, it matters when ways are combined exactly if the
  common part goes one way only and the ways dispute that;
* `Trail.distributes_iff_undisputed`: the same for trails. In any case merging early loses no
  outcome that merging late finds;
* `Trail.not_distributes_returning`: it may find one that merging late does not.
-/

namespace DemandAlias

/-! ### One branch -/

namespace Outcome

theorem eq_both_or_only (o : Outcome) : o = .both ∨ ∃ way, o = .only way := by
  cases o with
  | taken => exact .inr ⟨true, rfl⟩
  | skipped => exact .inr ⟨false, rfl⟩
  | both => exact .inl rfl

theorem only_ne_both (way : Bool) : only way ≠ .both := by
  cases way <;> exact nofun

/-- A branch goes one way only on two ways in a row if it does so on both of them. -/
theorem along_eq_only_iff {a b : Outcome} {way : Bool} :
    a.along b = .only way ↔ a = .only way ∧ b = .only way := by
  unfold along
  split
  · next h => rw [h, and_self]
  · next h => exact iff_of_false (only_ne_both way).symm fun hboth => h (hboth.1.trans hboth.2.symm)

end Outcome

namespace Verdict

theorem extend_comm (v w : Verdict) : extend v w = extend w v := by
  rcases v with _ | _ | o <;> rcases w with _ | _ | p <;> try rfl
  cases o <;> cases p <;> rfl

theorem extend_unknown (v : Verdict) : extend v .unknown = v := by
  cases v <;> rfl

variable {v w : Verdict} {o p : Outcome} {way : Bool}

/-- On ways that there are, verdicts that are not the same combine to nothing. -/
theorem combine_eq_ite (hv : v ≠ .noWay) (hw : w ≠ .noWay) :
    combine v w = if v = w then v else .unknown := by
  cases v with
  | noWay => exact absurd rfl hv
  | unknown | known => cases w <;> simp_all [combine]

theorem combine_self (v : Verdict) : combine v v = v := by
  by_cases hv : v = .noWay
  · rw [hv, combine_noWay]
  · rw [combine_eq_ite hv hv, if_pos rfl]

theorem extend_ne_noWay (hv : v ≠ .noWay) (hw : w ≠ .noWay) : extend v w ≠ .noWay := by
  cases v with
  | noWay => exact absurd rfl hv
  | unknown | known _ =>
    cases w with
    | noWay => exact absurd rfl hw
    | unknown | known _ => exact nofun

theorem extend_known_both (hv : v ≠ .noWay) : extend (.known .both) v = .known .both := by
  rcases v with _ | _ | p
  · exact absurd rfl hv
  · rfl
  · cases p <;> rfl

/-- A branch goes one way only on two ways in a row if it does so on the first one and no other
    outcome is known on the second. -/
theorem extend_known_eq_only_iff (hv : v ≠ .noWay) :
    extend (.known o) v = .known (.only way) ↔
      o = .only way ∧ ∀ p, v = .known p → p = .only way := by
  cases v with
  | noWay => exact absurd rfl hv
  | unknown => simp [extend_unknown]
  | known p =>
    have hrow : extend (.known o) (.known p) = Verdict.known (o.along p) := rfl
    simp [hrow, Outcome.along_eq_only_iff]

/-- There are ways on both sides, and exactly one side knows some outcome other than `o`. -/
def Disputes (v w : Verdict) (o : Outcome) : Prop :=
  v ≠ .noWay ∧ w ≠ .noWay ∧ ∃ p, p ≠ o ∧ ¬(v = .known p ↔ w = .known p)

theorem disputes_of_ne (hv : v ≠ .noWay) (hw : w ≠ .noWay) (hne : v ≠ w) (hp : p ≠ o)
    (h : v = .known p ∨ w = .known p) : v.Disputes w o := by
  refine ⟨hv, hw, p, hp, fun hiff => ?_⟩
  rcases h with h | h
  · exact hne (h.trans (hiff.1 h).symm)
  · exact hne ((hiff.2 h).trans h.symm)

/-- If ways are combined before something is put to them and after, the verdicts are the same, or
    else what is put to them goes one way only, the ways dispute that, and it is known only if they
    are combined before. -/
theorem extend_combine_cases (u v w : Verdict) :
    (extend u (combine v w) = combine (extend u v) (extend u w) ∧
      ∀ way, u = .known (.only way) → ¬v.Disputes w (.only way)) ∨
    ∃ way, u = .known (.only way) ∧ v.Disputes w (.only way) ∧
      extend u (combine v w) = u ∧
      ∀ way', combine (extend u v) (extend u w) ≠ .known (.only way') := by
  by_cases hdisputed : ∃ way, u = .known (.only way) ∧ v.Disputes w (.only way)
  · obtain ⟨way, rfl, hdisputes⟩ := hdisputed
    have ⟨hv, hw, p, hp, hone⟩ := hdisputes
    have hne : v ≠ w := fun heq => hone (heq ▸ Iff.rfl)
    refine .inr ⟨way, rfl, hdisputes, ?_, fun way' hlate => ?_⟩
    · rw [combine_eq_ite hv hw, if_neg hne, extend_unknown]
    · -- An outcome that is known late is known on both sides, so neither has another one.
      rw [combine_eq_ite (extend_ne_noWay Verdict.noConfusion hv)
        (extend_ne_noWay Verdict.noConfusion hw)] at hlate
      split at hlate
      · next heq =>
        obtain ⟨hway, hv'⟩ := (extend_known_eq_only_iff hv).1 hlate
        obtain ⟨-, hw'⟩ := (extend_known_eq_only_iff hw).1 (heq ▸ hlate)
        rw [hway] at hp
        exact hone ⟨fun h => absurd (hv' p h) hp, fun h => absurd (hw' p h) hp⟩
      · cases hlate
  · refine .inl ⟨?_, fun way hu hdisputes => hdisputed ⟨way, hu, hdisputes⟩⟩
    by_cases hv : v = .noWay
    · rw [hv, extend_noWay]
      rfl
    by_cases hw : w = .noWay
    · rw [hw, combine_noWay, extend_noWay, combine_noWay]
    by_cases hne : v = w
    · rw [hne, combine_self, combine_self]
    have hforgotten : combine v w = .unknown := by rw [combine_eq_ite hv hw, if_neg hne]
    rw [hforgotten, extend_unknown]
    cases u with
    | noWay => rfl
    | unknown => rw [extend_comm, extend_unknown, extend_comm, extend_unknown, hforgotten]
    | known o =>
      rcases o.eq_both_or_only with rfl | ⟨way, rfl⟩
      · rw [extend_known_both hv, extend_known_both hw, combine_self]
      · have hundisputed : ∀ p, v = .known p ∨ w = .known p → p = .only way := fun p h =>
          Decidable.not_not.1 fun hp => hdisputed ⟨way, rfl, disputes_of_ne hv hw hne hp h⟩
        have hrowv := (extend_known_eq_only_iff hv).2 ⟨rfl, fun p h => hundisputed p (.inl h)⟩
        have hroww := (extend_known_eq_only_iff hw).2 ⟨rfl, fun p h => hundisputed p (.inr h)⟩
        rw [hrowv, hroww, combine_self]

end Verdict

namespace Trail

/-! ### Nodes -/

theorem shorter_append_left (a b c : List Node) : shorter (a ++ b) (a ++ c) = a ++ shorter b c := by
  rcases shorter_cases b c with heq | ⟨hprecedes, heq⟩
  · have hfirst : NoLater b c := heq ▸ shorter_noLater_right b c
    rw [heq, shorter_eq_left (NoLater.append (.inl rfl) hfirst)]
  · rw [heq, shorter_comm, shorter_eq_left (.inr (hprecedes.append_left a))]

theorem shorter_append_right (a b c : List Node) :
    shorter (a ++ c) (b ++ c) = shorter a b ++ c := by
  rcases shorter_cases a b with heq | ⟨hprecedes, heq⟩
  · have hfirst : NoLater a b := heq ▸ shorter_noLater_right a b
    rw [heq, shorter_eq_left (hfirst.append (.inl rfl))]
  · rw [heq, shorter_comm, shorter_eq_left (.inr (hprecedes.append_right c))]

/-- The first of the ways is the same one, whatever is put before them. -/
theorem nodes_extend_combine (a b c : Trail) : (extend a (combine b c)).nodes =
    (combine (extend a b) (extend a c)).nodes := by
  cases a with
  | zero => rfl
  | path ns =>
    cases b with
    | zero => cases c <;> rfl
    | path ms =>
      cases c with
      | zero => rfl
      | path ls => exact (shorter_append_left ns ms ls).symm

/-- The first of the ways is the same one, whatever is put after them. -/
theorem nodes_combine_extend (a b c : Trail) : (extend (combine a b) c).nodes =
    (combine (extend a c) (extend b c)).nodes := by
  cases a with
  | zero => cases b <;> rfl
  | path ns =>
    cases b with
    | zero => cases c <;> rfl
    | path ms =>
      cases c with
      | zero => rfl
      | path ls => exact (shorter_append_right ns ms ls).symm

/-! ### Trails -/

/-- There are ways on both sides, and exactly one side knows some outcome of the branch at `k`
    other than `o`. -/
def Disputes (v w : Trail) (k : Node) (o : Outcome) : Prop :=
  v ≠ .zero ∧ w ≠ .zero ∧ ∃ p, p ≠ o ∧ ¬((k, p) ∈ v.conditions ↔ (k, p) ∈ w.conditions)

theorem disputes_iff {v w : Trail} {k : Node} {o : Outcome} :
    v.Disputes w k o ↔ (v.verdict k).Disputes (w.verdict k) o := by
  simp only [Disputes, Verdict.Disputes, verdict_eq_known_iff, ne_eq, verdict_eq_noWay_iff]

/-- The trail has the nodes of the other one, and knows all branches that go one way only by the
    other one. -/
structure Refines (v w : Trail) : Prop where
  zero_iff : v = .zero ↔ w = .zero
  nodes : v.nodes = w.nodes
  known : ∀ {k way}, (k, .only way) ∈ w.conditions → (k, .only way) ∈ v.conditions

/-- What holds of each branch apart holds of trails with the same nodes. -/
theorem refines_and_eq_iff {a b c early late : Trail} (hzero : early = .zero ↔ late = .zero)
    (hnodes : early.nodes = late.nodes)
    (hearly : ∀ k, early.verdict k = extend (a.verdict k) (combine (b.verdict k) (c.verdict k)))
    (hlate : ∀ k, late.verdict k = combine (extend (a.verdict k) (b.verdict k))
      (extend (a.verdict k) (c.verdict k))) :
    early.Refines late ∧
      (early = late ↔ ∀ k way, (k, .only way) ∈ a.conditions → ¬b.Disputes c k (.only way)) := by
  have hcases := fun k => Verdict.extend_combine_cases (a.verdict k) (b.verdict k) (c.verdict k)
  simp only [← hearly, ← hlate, ← disputes_iff, verdict_eq_known_iff] at hcases
  refine ⟨⟨hzero, hnodes, fun {k way} h => ?_⟩, fun heq k way hmem hdisputes => ?_, fun h => ?_⟩
  · rcases hcases k with ⟨hsame, -⟩ | ⟨_, -, -, -, hlost⟩
    · rwa [← verdict_eq_known_iff, hsame, verdict_eq_known_iff]
    · exact absurd (verdict_eq_known_iff.2 h) (hlost way)
  · rcases hcases k with ⟨-, hundisputed⟩ | ⟨way', hmem', -, hkept, hlost⟩
    · exact hundisputed way hmem hdisputes
    · exact hlost way' (heq ▸ hkept.trans (verdict_eq_known_iff.2 hmem'))
  · refine ext_verdict hnodes fun k => ?_
    rcases hcases k with ⟨hsame, -⟩ | ⟨way, hmem, hdisputes, -⟩
    · exact hsame
    · exact absurd hdisputes (h k way hmem)

/-- Whether ways are combined before something is put to them or after is the same to the nodes,
    and what is known late is known early: that a branch goes one way only. All is the same exactly
    if no outcome, one way only, of what is put to the ways is disputed by them. -/
theorem distributes_iff_undisputed (a b c : Trail) :
    ((extend a (combine b c)).Refines
        (combine (extend a b) (extend a c)) ∧
      (extend a (combine b c) =
          combine (extend a b) (extend a c) ↔
        ∀ k way, (k, .only way) ∈ a.conditions → ¬b.Disputes c k (.only way))) ∧
    (extend (combine a b) c).Refines
        (combine (extend a c) (extend b c)) ∧
      (extend (combine a b) c =
          combine (extend a c) (extend b c) ↔
        ∀ k way, (k, .only way) ∈ c.conditions → ¬a.Disputes b k (.only way)) := by
  refine ⟨refines_and_eq_iff ?_ (nodes_extend_combine a b c) (fun k => ?_) fun k => ?_,
    refines_and_eq_iff ?_ (nodes_combine_extend a b c) (fun k => ?_) fun k => ?_⟩
  · exact extend_eq_zero_iff.trans ((or_congr_right combine_eq_zero_iff).trans (or_and_left.trans
      (combine_eq_zero_iff.trans (and_congr extend_eq_zero_iff extend_eq_zero_iff)).symm))
  · rw [verdict_extend, verdict_combine]
  · rw [verdict_combine, verdict_extend, verdict_extend]
  · exact extend_eq_zero_iff.trans ((or_congr_left combine_eq_zero_iff).trans (and_or_right.trans
      (combine_eq_zero_iff.trans (and_congr extend_eq_zero_iff extend_eq_zero_iff)).symm))
  · rw [verdict_extend, verdict_combine, Verdict.extend_comm]
  · rw [verdict_combine, verdict_extend, verdict_extend, Verdict.extend_comm (a.verdict k),
      Verdict.extend_comm (b.verdict k)]

namespace Returning

def node (index : Nat) : Node := ⟨⟨⟨"Main.main"⟩, index, .nop⟩, ⟨⟨"Main.main"⟩, "x"⟩⟩

/-- A way on which the branch at the first node goes to its target. -/
def out : Trail := .branch (node 2) (node 1) .taken

/-- A way on which it goes on to the next statement. -/
def back : Trail := .branch (node 3) (node 1) .skipped

/-- A way that does not come by the branch. -/
def past : Trail := .step (node 3)

end Returning

/-- If the ways that come by a branch again and those that do not are combined early, then the
    branch is known to go to its target on all of them; if they are combined late nothing is known
    of it. It is the same with what comes after them. -/
theorem not_distributes_returning :
    extend Returning.out (combine Returning.back Returning.past) ≠
      combine (extend Returning.out Returning.back)
        (extend Returning.out Returning.past) ∧
    extend (combine Returning.back Returning.past) Returning.out ≠
      combine (extend Returning.back Returning.out)
        (extend Returning.past Returning.out) ∧
    (extend Returning.out (combine Returning.back Returning.past)).conditions =
      [(Returning.node 1, .taken)] ∧
    (combine (extend Returning.out Returning.back)
      (extend Returning.out Returning.past)).conditions = [] := by
  decide

end Trail

end DemandAlias
