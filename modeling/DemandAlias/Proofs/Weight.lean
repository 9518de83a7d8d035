import DemandAlias.Flow.Weighing

/-!
# Weights that never vanish

An automaton does not store a transition of weight zero, so an analysis loses ways if
the weights of ways that can be gone combine or extend to zero. They do not, neither
for reachability nor for trails.

* `ZeroFree`: combining and extending weights other than zero never gives zero;
* `ZeroCombine`: combining with zero changes nothing;
* `LawfulCombine`: neither the order matters in which weights are combined, nor how often;
* `Weight.LaxAccounting`, `Weight.Accounting`: what weights tell of ways, kept by combining and
  extending;
* `Weighing.ZeroFree`: no move weighs zero;
* `zeroFree_reach`, `zeroFree_trail`: both ways of weighing moves are of this kind.
-/

namespace DemandAlias

/-- Weights for which a way that can be gone never weighs as no way at all. -/
class ZeroFree (ω : Type) [Weight ω] : Prop where
  one_ne_zero : (one : ω) ≠ zero
  combine_ne_zero : ∀ {a b : ω}, a ≠ zero → combine a b ≠ zero
  extend_ne_zero : ∀ {a b : ω}, a ≠ zero → b ≠ zero → extend a b ≠ zero

instance : ZeroFree Reach where
  one_ne_zero := nofun
  combine_ne_zero {a b} ha := by
    cases a with
    | one => cases b <;> exact nofun
    | zero => exact absurd rfl ha
  extend_ne_zero {a b} ha hb := by
    cases a with
    | one => cases b with
      | one => exact nofun
      | zero => exact absurd rfl hb
    | zero => exact absurd rfl ha

instance : ZeroFree Trail where
  one_ne_zero := nofun
  combine_ne_zero {a b} ha := by
    cases a with
    | path => cases b <;> exact nofun
    | zero => exact absurd rfl ha
  extend_ne_zero {a b} ha hb := by
    cases a with
    | path => cases b with
      | path => exact nofun
      | zero => exact absurd rfl hb
    | zero => exact absurd rfl ha

/-- Weights for which no way at all adds nothing to a combination. -/
class ZeroCombine (ω : Type) [Weight ω] : Prop where
  zero_combine : ∀ a : ω, combine zero a = a

instance : ZeroCombine Reach where
  zero_combine := LawfulWeight.zero_combine

instance : ZeroCombine Trail where
  zero_combine a := by cases a <;> rfl

theorem ZeroFree.combine_ne_zero_right {ω : Type} [Weight ω] [ZeroFree ω] [ZeroCombine ω] (a : ω)
    {b : ω} (hb : b ≠ zero) : combine a b ≠ zero := by
  by_cases ha : a = zero
  · rwa [ha, ZeroCombine.zero_combine]
  · exact combine_ne_zero ha

/-- Weights that can be combined in any order and any number of times. -/
class LawfulCombine (ω : Type) [Weight ω] : Prop extends ZeroCombine ω where
  combine_assoc : ∀ a b c : ω, combine (combine a b) c = combine a (combine b c)
  combine_comm : ∀ a b : ω, combine a b = combine b a
  combine_self : ∀ a : ω, combine a a = a

instance {ω : Type} [Weight ω] [LawfulWeight ω] : LawfulCombine ω where
  zero_combine := LawfulWeight.zero_combine
  combine_assoc := LawfulWeight.combine_assoc
  combine_comm := LawfulWeight.combine_comm
  combine_self := LawfulWeight.combine_self

/-- `accounts w es` says that the weight `w` takes the ways into account on which the events
    `es` happen, one after the other. A combination does so if one of its parts does, and an
    extension for two ways in a row. On a way on which more happens, less is claimed. Where no
    way at all is enough to account for events, none is needed for what begins with them. -/
structure Weight.LaxAccounting {ω ε : Type} [Weight ω] (accounts : ω → List ε → Prop) : Prop where
  of_zero : ∀ {es} a fs, accounts zero es → accounts a (es ++ fs)
  one : accounts one []
  extend : ∀ {a b es fs}, accounts a es → accounts b fs → accounts (extend a b) (es ++ fs)
  left : ∀ {a es} b, accounts a es → accounts (combine a b) es
  right : ∀ a {b es}, accounts b es → accounts (combine a b) es
  skip : ∀ {a es fs}, es.Sublist fs → accounts a es → accounts a fs

/-- An accounting in which no way at all accounts for nothing. -/
structure Weight.Accounting {ω ε : Type} [Weight ω] (accounts : ω → List ε → Prop) : Prop extends
    LaxAccounting accounts where
  ne_zero : ∀ {a es}, accounts a es → a ≠ zero
  of_zero := fun _ _ h => absurd rfl (ne_zero h)

/-- A weight other than zero takes all ways into account that there are. -/
theorem Weight.accounting_ne_zero {ω ε : Type} [Weight ω] [ZeroFree ω] [ZeroCombine ω] :
    Accounting fun (a : ω) (_ : List ε) => a ≠ zero where
  ne_zero ha := ha
  one := ZeroFree.one_ne_zero
  extend := ZeroFree.extend_ne_zero
  left _ ha := ZeroFree.combine_ne_zero ha
  right a _ _ hb := ZeroFree.combine_ne_zero_right a hb
  skip _ ha := ha

namespace Weighing

/-- No move weighs as no way at all. -/
structure ZeroFree {ω : Type} [Weight ω] (w : Weighing ω) : Prop where
  step : ∀ source target, w.step source target ≠ zero
  enter : ∀ source target, w.enter source target ≠ zero
  leave : ∀ source target, w.leave source target ≠ zero

theorem zeroFree_reach : reach.ZeroFree where
  step _ _ := nofun
  enter _ _ := nofun
  leave _ _ := nofun

theorem zeroFree_trail : trail.ZeroFree where
  step source target := by
    simp only [trail]
    split <;> exact nofun
  enter _ _ := nofun
  leave _ _ := nofun

end Weighing

export Weighing (zeroFree_reach zeroFree_trail)

end DemandAlias
