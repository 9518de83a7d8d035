import DemandAlias.Proofs.Conditions

/-!
# What trails know of one branch

A trail knows outcomes of many branches. What it knows of one of them, its *verdict*, is put
together from what the trails it is made of know of the same branch (`Trail.verdict_combine`,
`Trail.verdict_extend`), so verdicts are weights of their own. They change less often than trails
(`Verdict.combine_cases`): first there is no way, then there may be an outcome, and then nothing
is known. A trail is its nodes and its verdicts (`Trail.ext_verdict`).
-/

namespace DemandAlias

/-- What is known of one branch. -/
inductive Verdict where
  /-- There is no way. -/
  | noWay
  /-- Nothing is known on all ways. -/
  | unknown
  /-- All ways have this outcome. -/
  | known (o : Outcome)
  deriving DecidableEq

namespace Verdict

/-- The verdict if there are ways. -/
def of : Option Outcome → Verdict
  | none => .unknown
  | some o => .known o

theorem of_injective {a b : Option Outcome} (h : of a = of b) : a = b := by
  cases a <;> cases b <;> simp_all [of]

instance : Weight Verdict where
  one := .unknown
  zero := .noWay
  combine
    | .noWay, v => v
    | v, .noWay => v
    | .known o, .known p => if o = p then .known o else .unknown
    | _, _ => .unknown
  extend
    | .noWay, _ => .noWay
    | _, .noWay => .noWay
    | .unknown, v => v
    | v, .unknown => v
    | .known o, .known p => .known (o.along p)

theorem combine_noWay (v : Verdict) : combine v .noWay = v := by
  cases v <;> rfl

theorem extend_noWay (v : Verdict) : extend v .noWay = .noWay := by
  cases v <;> rfl

theorem combine_of (a b : Option Outcome) :
    combine (of a) (of b) = of (if a = b then a else none) := by
  rcases a with _ | o
  · cases b <;> rfl
  · rcases b with _ | p
    · rfl
    · by_cases h : o = p <;> simp [of, combine, h]

theorem extend_of (a b : Option Outcome) :
    extend (of a) (of b) = of (a.merge Outcome.along b) := by
  cases a <;> cases b <;> rfl

/-- How often a verdict may still change. -/
def rank : Verdict → Nat
  | .noWay => 2
  | .known _ => 1
  | .unknown => 0

theorem rank_le_two (v : Verdict) : v.rank ≤ 2 := by
  cases v <;> simp [rank]

/-- Combining leaves a verdict as it is, or gives one that may change less often. -/
theorem combine_cases (v w : Verdict) :
    combine v w = v ∨ (combine v w).rank < v.rank := by
  cases v with
  | noWay => cases w <;> simp [combine, rank]
  | unknown => cases w <;> exact .inl rfl
  | known o =>
    cases w with
    | noWay => exact .inl rfl
    | unknown => exact .inr Nat.zero_lt_one
    | known p => by_cases h : o = p <;> simp [combine, rank, h]

/-- If there was a way, an outcome known after combining was known before. -/
theorem combine_of_ne_noWay {v : Verdict} (hv : v ≠ .noWay) (w : Verdict) :
    combine v w ≠ .noWay ∧ ∀ o, combine v w = .known o → v = .known o := by
  cases v with
  | noWay => exact absurd rfl hv
  | unknown => cases w <;> simp [combine]
  | known p =>
    cases w with
    | noWay | unknown => simp [combine]
    | known p' => by_cases h : p = p' <;> simp [combine, h]

end Verdict

namespace Trail

/-- What the trail knows of the branch at `k`. -/
def verdict (k : Node) : Trail → Verdict
  | .zero => .noWay
  | .path _ c => .of (c.get? k)

theorem verdict_combine (k : Node) (v w : Trail) :
    (combine v w).verdict k = combine (v.verdict k) (w.verdict k) := by
  cases v with
  | zero => cases w <;> rfl
  | path _ c =>
    cases w with
    | zero => exact (Verdict.combine_noWay _).symm
    | path =>
      rw [verdict, verdict, Verdict.combine_of, ← c.get?_agreed]
      rfl

theorem verdict_extend (k : Node) (v w : Trail) :
    (extend v w).verdict k = extend (v.verdict k) (w.verdict k) := by
  cases v with
  | zero => cases w <;> rfl
  | path _ c =>
    cases w with
    | zero => exact (Verdict.extend_noWay _).symm
    | path =>
      rw [verdict, verdict, Verdict.extend_of, ← c.get?_along]
      rfl

theorem verdict_eq_known_iff {k : Node} {w : Trail} {o : Outcome} :
    w.verdict k = .known o ↔ (k, o) ∈ w.conditions := by
  cases w with
  | zero => exact iff_of_false Verdict.noConfusion not_mem_nil
  | path _ c =>
    rw [conditions, ← c.get?_eq_some_iff]
    exact ⟨fun h => Verdict.of_injective h, congrArg Verdict.of⟩

theorem verdict_eq_noWay_iff {k : Node} {w : Trail} : w.verdict k = .noWay ↔ w = .zero := by
  cases w with
  | zero => exact iff_of_true rfl rfl
  | path _ c => rw [verdict]; cases c.get? k <;> simp [Verdict.of]

/-- A trail is its nodes and what it knows of each branch. -/
theorem ext_verdict {v w : Trail} (hnodes : v.nodes = w.nodes)
    (h : ∀ k, v.verdict k = w.verdict k) : v = w := by
  cases v with
  | zero => exact (verdict_eq_noWay_iff.1 (h default).symm).symm
  | path ns =>
    cases w with
    | zero => exact verdict_eq_noWay_iff.1 (h default)
    | path ms =>
      obtain rfl : ns = ms := hnodes
      rw [Conditions.ext_get? fun k => Verdict.of_injective (h k)]

end Trail

end DemandAlias
