import DemandAlias.Proofs.Termination.Tally
import DemandAlias.Proofs.Trail
import Mathlib.Data.Set.Card
import Mathlib.Data.Set.Finite.Lattice

/-!
# Weights that settle

The weight of a transition changes whenever another way is found that is better. It does
so only finitely often, if all moves lead to nodes of a finite set (`Weighing.Settles`).
Whether there is a way is known at once (`settles_reach`). Of a trail, the nodes change to
a shorter list of them or to one that comes before, and there are only finitely many of
these; as long as the nodes stay, outcomes of branches only get lost (`settles_trail`).
-/

namespace DemandAlias

/-- The weights of moves to nodes for which `H` holds are among those for which `P` holds,
    and these settle. -/
structure Weighing.Settles {ω : Type} [Weight ω] (w : Weighing ω) (H : Node → Prop) (P : ω → Prop)
    (rank : ω → Nat) : Prop extends DemandAlias.Settles P rank where
  extend : ∀ {a b}, P a → P b → P (extend a b)
  step : ∀ source {target}, H target → P (w.step source target)
  enter : ∀ source {target}, H target → P (w.enter source target)
  leave : ∀ source {target}, H target → P (w.leave source target)

/-! ### Reachability -/

theorem Weighing.settles_reach (H : Node → Prop) :
    reach.Settles H (fun w => w = Reach.one) fun _ => 0 where
  one := rfl
  combine ha hb := by
    rw [ha, hb]
    rfl
  descends ha hb hne := by
    rw [ha, hb] at hne
    exact absurd rfl hne
  extend ha hb := by
    rw [ha, hb]
    rfl
  step _ _ _ := rfl
  enter _ _ _ := rfl
  leave _ _ _ := rfl

/-! ### Trails -/

/-- There are only finitely many short lists of members of a finite set. -/
theorem finite_lists {α : Type} {S : Set α} (hS : S.Finite) (k : Nat) :
    {l : List α | (∀ a ∈ l, a ∈ S) ∧ l.length ≤ k}.Finite := by
  induction k with
  | zero =>
    refine (Set.finite_singleton []).subset ?_
    rintro l ⟨-, hl⟩
    exact List.length_eq_zero_iff.1 (Nat.le_zero.1 hl)
  | succ k ih =>
    -- A list is empty, or a member before a shorter list.
    refine ((Set.Finite.image2 List.cons hS ih).insert []).subset ?_
    rintro l ⟨hmem, hl⟩
    cases l with
    | nil => exact Set.mem_insert _ _
    | cons a l =>
      refine .inr ⟨a, hmem a mem_cons_self, l, ⟨fun b hb => ?_, ?_⟩, rfl⟩
      · exact hmem b (mem_cons_of_mem _ hb)
      · exact Nat.le_of_succ_le_succ hl

namespace Trail

open Std

/-- The lists of members of `S` that count before the nodes of a trail. -/
def preceding (S : Set Node) (nodes : List Node) : Set (List Node) :=
  {l | (∀ n ∈ l, n ∈ S) ∧ Precedes l nodes}

theorem ncard_preceding_lt {S : Set Node} (hS : S.Finite) {a b : List Node} (ha : ∀ n ∈ a, n ∈ S)
    (h : Precedes a b) : (preceding S a).ncard < (preceding S b).ncard := by
  have hfinite : (preceding S b).Finite :=
    (finite_lists hS b.length).subset fun l hl => ⟨hl.1, hl.2.length_le⟩
  refine Set.ncard_lt_ncard ⟨fun l hl => ⟨hl.1, hl.2.trans h⟩, fun hsub => ?_⟩ hfinite
  exact not_precedes_self a (hsub ⟨ha, h⟩).2

/-- How often a trail can change: to trails with nodes that count before, and by the loss
    of an outcome. -/
noncomputable def rank (S : Set Node) : Trail → Nat
  | .zero => 0
  | .path nodes conditions => (preceding S nodes).ncard + conditions.entries.length

/-- Agreeing with others only loses outcomes. -/
theorem length_agreed_le (c d : Conditions) :
    (c.agreed d).entries.length ≤ c.entries.length ∧
      ((c.agreed d).entries.length = c.entries.length → c.agreed d = c) := by
  have hsub : (c.agreed d).entries.Sublist c.entries := List.filter_sublist
  refine ⟨hsub.length_le, fun hlength => ?_⟩
  have hentries := hsub.eq_of_length hlength
  generalize c.agreed d = e at hentries
  obtain ⟨entries, _⟩ := c
  obtain ⟨entries', _⟩ := e
  cases hentries
  rfl

theorem rank_combine_lt {S : Set Node} (hS : S.Finite) {a b : Trail} (ha : a ≠ .zero)
    (hb : b ≠ .zero) (hnodes : ∀ n ∈ b.nodes, n ∈ S) (hne : combine a b ≠ a) :
    rank S (combine a b) < rank S a := by
  cases a with
  | zero => exact absurd rfl ha
  | path n c =>
    cases b with
    | zero => exact absurd rfl hb
    | path m d =>
      obtain ⟨hle, heq⟩ := length_agreed_le c d
      have hcombine : combine (path n c) (path m d) = path (shorter n m) (c.agreed d) := rfl
      rw [hcombine] at hne ⊢
      rcases shorter_cases n m with hshorter | ⟨hprecedes, hshorter⟩
      · rw [hshorter] at hne ⊢
        have hlost : (c.agreed d).entries.length ≠ c.entries.length := fun hlength =>
          hne (by rw [heq hlength])
        exact Nat.add_lt_add_left (Nat.lt_of_le_of_ne hle hlost) _
      · rw [hshorter]
        exact Nat.add_lt_add_of_lt_of_le (ncard_preceding_lt hS hnodes hprecedes) hle

/-- There is a way, along nodes of `S`. -/
def Visits (S : Set Node) (w : Trail) : Prop := w ≠ .zero ∧ ∀ n ∈ w.nodes, n ∈ S

theorem visits_path {S : Set Node} {nodes : List Node} {conditions : Conditions} :
    Visits S (.path nodes conditions) ↔ ∀ n ∈ nodes, n ∈ S :=
  and_iff_right fun h => by cases h

end Trail

theorem Weighing.settles_trail {H : Node → Prop} (hH : {n | H n}.Finite) :
    trail.Settles H (Trail.Visits {n | H n}) (Trail.rank {n | H n}) where
  one := Trail.visits_path.2 fun _ hn => nomatch hn
  combine {a b} ha hb := by
    cases a with
    | zero => exact absurd rfl ha.1
    | path n =>
      cases b with
      | zero => exact absurd rfl hb.1
      | path m =>
        refine Trail.visits_path.2 ?_
        rcases Trail.shorter_cases n m with heq | ⟨-, heq⟩
        · rw [heq]
          exact ha.2
        · rw [heq]
          exact hb.2
  descends ha hb hne := Trail.rank_combine_lt hH ha.1 hb.1 hb.2 hne
  extend {a b} ha hb := by
    cases a with
    | zero => exact absurd rfl ha.1
    | path =>
      cases b with
      | zero => exact absurd rfl hb.1
      | path =>
        refine Trail.visits_path.2 fun x hx => ?_
        rcases mem_append.1 hx with hx | hx
        · exact ha.2 x hx
        · exact hb.2 x hx
  step source target htarget := by
    simp only [trail]
    split <;> exact Trail.visits_path.2 fun x hx => mem_singleton.1 hx ▸ htarget
  enter _ target htarget := Trail.visits_path.2 fun x hx => mem_singleton.1 hx ▸ htarget
  leave _ target htarget := Trail.visits_path.2 fun x hx => mem_singleton.1 hx ▸ htarget

end DemandAlias
