import DemandAlias.Weight.Trail

/-!
# Outcomes by node

Outcomes are listed in the order of their nodes, so they can be looked up node by node, and
what is known of two ways is known at each node apart.

* `Conditions.get?_along`: on two ways in a row, a branch goes as it does on the first and then
  as it does on the second;
* `Conditions.get?_agreed`: on either of two ways, it goes as it does on both;
* `Conditions.ext_get?`: the outcomes at the nodes are all there is;
* `Outcome.Shows`: an outcome shows which way a branch goes, or that it goes both ways;
* `Trail.Shows`: a trail shows the same by the outcome it knows, if any.
-/

namespace DemandAlias

/-! ### Ways that a branch goes -/

namespace Outcome

/-- The branch goes this way at least once: to its target, or on to the next statement. -/
def Shows : Outcome → Bool → Prop
  | .taken, b => b = true
  | .skipped, b => b = false
  | .both, _ => True

instance (o : Outcome) (b : Bool) : Decidable (o.Shows b) :=
  match o with
  | .taken => inferInstanceAs (Decidable (b = true))
  | .skipped => inferInstanceAs (Decidable (b = false))
  | .both => inferInstanceAs (Decidable True)

/-- The outcome of a branch that goes this way only. -/
def only : Bool → Outcome
  | true => .taken
  | false => .skipped

theorem shows_only_iff (a b : Bool) : (only a).Shows b ↔ b = a := by
  cases a <;> rfl

theorem eq_only_of_not_shows {o : Outcome} {b : Bool} (h : ¬o.Shows !b) : o = only b := by
  cases o <;> cases b <;> simp_all [Shows, only]

theorem along_self (a : Outcome) : a.along a = a := if_pos rfl

/-- What goes this way on two ways in a row does so on one of them. -/
theorem shows_of_shows_along {a b : Outcome} {way : Bool} (h : (a.along b).Shows way) :
    a.Shows way ∨ b.Shows way := by
  cases a <;> cases b <;> cases way <;> simp_all [Shows, along]

end Outcome

/-! ### Looking outcomes up -/

namespace Conditions

open Std

variable {n : Node} {entries : List (Node × Outcome)}

theorem ne_of_before {m : Node} (h : compare m n = .lt) : m ≠ n := by
  rintro rfl
  have heq : compare m m = .eq := ReflCmp.compare_self
  cases heq.symm.trans h

theorem lookup_cons (n m : Node) (p : Outcome) (entries : List (Node × Outcome)) :
    ((m, p) :: entries).lookup n = if n = m then some p else entries.lookup n := by
  rw [List.lookup_cons]
  by_cases h : n = m
  · simp [h]
  · rw [beq_false_of_ne h, if_neg h]

/-- A node that comes before all others is not among them. -/
theorem lookup_eq_none (h : ∀ e ∈ entries, compare n e.1 = .lt) :
    entries.lookup n = Option.none := by
  rw [List.lookup_eq_none_iff]
  exact fun e he => bne_iff_ne.2 (ne_of_before (h e he))

theorem lookup_eq_some_iff (h : entries.Pairwise fun a b => compare a.1 b.1 = .lt) (n : Node)
    (o : Outcome) : entries.lookup n = some o ↔ (n, o) ∈ entries := by
  induction entries with
  | nil => simp
  | cons e entries ih =>
    obtain ⟨m, p⟩ := e
    obtain ⟨hfirst, hrest⟩ := pairwise_cons.1 h
    rw [lookup_cons]
    by_cases heq : n = m
    · subst heq
      have hnone : (n, o) ∉ entries := fun hmem => ne_of_before (hfirst _ hmem) rfl
      simp [hnone, eq_comm]
    · simp [heq, ih hrest]

theorem get?_eq_some_iff (c : Conditions) (n : Node) (o : Outcome) :
    c.get? n = some o ↔ (n, o) ∈ c.entries :=
  lookup_eq_some_iff c.increasing n o

/-- The outcomes at the nodes are all there is. -/
theorem ext_get? {c d : Conditions} (h : ∀ n, c.get? n = d.get? n) : c = d := by
  have hnodup : ∀ c : Conditions, c.entries.Nodup := fun c =>
    c.increasing.imp fun hlt heq => ne_of_before hlt (congrArg Prod.fst heq)
  have hperm : c.entries.Perm d.entries :=
    (List.perm_ext_iff_of_nodup (hnodup c) (hnodup d)).2 fun ⟨n, o⟩ => by
      rw [← get?_eq_some_iff, ← get?_eq_some_iff, h]
  -- There is only one order in which to list them.
  have hentries : c.entries = d.entries :=
    hperm.eq_of_pairwise (fun a b _ _ (hlt : compare a.1 b.1 = .lt) hgt =>
      absurd rfl (ne_of_before (TransCmp.lt_trans hlt hgt))) c.increasing d.increasing
  cases c
  cases d
  cases hentries
  rfl

theorem lookup_insertEntry (m : Node) (p : Outcome)
    (h : entries.Pairwise fun a b => compare a.1 b.1 = .lt) (n : Node) :
    (insertEntry m p entries).lookup n =
      (entries.lookup n).merge Outcome.along (if n = m then some p else Option.none) := by
  fun_induction insertEntry m p entries with
  | case1 =>
    rw [lookup_cons]
    split <;> rfl
  | case2 m' p' rest hlt =>
    have hnone : ((m', p') :: rest).lookup m = Option.none := lookup_eq_none fun e he => by
      rcases mem_cons.1 he with rfl | he
      · exact hlt
      · exact TransCmp.lt_trans hlt (List.rel_of_pairwise_cons h he)
    rw [lookup_cons n m]
    split
    · next heq => rw [heq, hnone, Option.merge_none_left]
    · rw [Option.merge_none_right]
  | case3 _ _ _ heq =>
    obtain rfl := LawfulEqOrd.eq_of_compare heq
    rw [lookup_cons, lookup_cons]
    split
    · rfl
    · rw [Option.merge_none_right]
  | case4 _ _ _ hgt ih =>
    rw [lookup_cons, lookup_cons]
    split
    · next heq =>
      have hne : n ≠ m := heq ▸ ne_of_before (OrientedCmp.lt_of_gt hgt)
      rw [if_neg hne, Option.merge_none_right]
    · exact ih (pairwise_cons.1 h).2

theorem get?_insertWith (c : Conditions) (m : Node) (p : Outcome) (n : Node) :
    (c.insertWith m p).get? n =
      (c.get? n).merge Outcome.along (if n = m then some p else Option.none) :=
  lookup_insertEntry m p c.increasing n

theorem get?_foldl_insertWith (c : Conditions) {ds : List (Node × Outcome)}
    (h : ds.Pairwise fun a b => compare a.1 b.1 = .lt) (n : Node) :
    (ds.foldl (fun c (m, p) => c.insertWith m p) c).get? n =
      (c.get? n).merge Outcome.along (ds.lookup n) := by
  induction ds generalizing c with
  | nil => simp
  | cons e _ ih =>
    obtain ⟨m, p⟩ := e
    obtain ⟨hfirst, hrest⟩ := pairwise_cons.1 h
    rw [foldl_cons, ih _ hrest, get?_insertWith, lookup_cons]
    split
    · next heq => rw [heq, lookup_eq_none hfirst, Option.merge_none_right]
    · rw [Option.merge_none_right]

/-- On two ways in a row, a branch goes as on the first and then as on the second. -/
theorem get?_along (c d : Conditions) (n : Node) :
    (c.along d).get? n = (c.get? n).merge Outcome.along (d.get? n) :=
  get?_foldl_insertWith c d.increasing n

/-- What goes this way on two ways in a row does so on one of them. -/
theorem shows_of_get?_along {c d : Conditions} {o : Outcome} {b : Bool}
    (h : (c.along d).get? n = some o) (hb : o.Shows b) :
    (∃ p, c.get? n = some p ∧ p.Shows b) ∨ ∃ p, d.get? n = some p ∧ p.Shows b := by
  rw [get?_along] at h
  cases hc : c.get? n with
  | none =>
    rw [hc, Option.merge_none_left] at h
    exact .inr ⟨o, h, hb⟩
  | some p =>
    cases hd : d.get? n with
    | none =>
      rw [hc, hd, Option.merge_none_right] at h
      cases h
      exact .inl ⟨_, rfl, hb⟩
    | some p' =>
      rw [hc, hd] at h
      cases h
      exact (Outcome.shows_of_shows_along hb).imp (⟨p, rfl, ·⟩) (⟨p', rfl, ·⟩)

theorem get?_agreed_eq_some_iff (c d : Conditions) (n : Node) (o : Outcome) :
    (c.agreed d).get? n = some o ↔ c.get? n = some o ∧ d.get? n = some o := by
  rw [get?_eq_some_iff, get?_eq_some_iff c, agreed, mem_filter, beq_iff_eq]

/-- Of a branch is known on either of two ways what is known on both. -/
theorem get?_agreed (c d : Conditions) (n : Node) :
    (c.agreed d).get? n = if c.get? n = d.get? n then c.get? n else Option.none := by
  refine Option.ext fun o => ?_
  rw [get?_agreed_eq_some_iff]
  split
  · next heq => rw [heq, and_self]
  · next hne =>
    exact iff_of_false (fun ⟨hc, hd⟩ => hne (hc.trans hd.symm)) (Option.some_ne_none o).symm

end Conditions

/-! ### Branches of trails -/

namespace Trail

/-- By the outcome that the trail knows, the branch goes this way. -/
def Shows (w : Trail) (k : Node) (b : Bool) : Prop := ∃ o, (k, o) ∈ w.conditions ∧ o.Shows b

theorem mem_conditions_path_iff {ns : List Node} {c : Conditions} {k : Node} {o : Outcome} :
    (k, o) ∈ (path ns c).conditions ↔ c.get? k = some o :=
  (c.get?_eq_some_iff k o).symm

variable {v w : Trail} {k : Node} {b : Bool}

theorem shows_left_of_combine (hv : v ≠ .zero) (h : (combine v w).Shows k b) :
    v.Shows k b := by
  cases v with
  | zero => exact absurd rfl hv
  | path _ c =>
    cases w with
    | zero => exact h
    | path _ d =>
      obtain ⟨o, ho, hb⟩ := h
      have hget := (c.get?_agreed_eq_some_iff d k o).1 (mem_conditions_path_iff.1 ho)
      exact ⟨o, mem_conditions_path_iff.2 hget.1, hb⟩

theorem shows_right_of_combine (hw : w ≠ .zero) (h : (combine v w).Shows k b) :
    w.Shows k b := by
  cases w with
  | zero => exact absurd rfl hw
  | path _ d =>
    cases v with
    | zero => exact h
    | path _ c =>
      obtain ⟨o, ho, hb⟩ := h
      have hget := (c.get?_agreed_eq_some_iff d k o).1 (mem_conditions_path_iff.1 ho)
      exact ⟨o, mem_conditions_path_iff.2 hget.2, hb⟩

theorem shows_of_extend (h : (extend v w).Shows k b) : v.Shows k b ∨ w.Shows k b := by
  obtain ⟨o, ho, hb⟩ := h
  cases v with
  | zero => cases ho
  | path =>
    cases w with
    | zero => cases ho
    | path =>
      refine (Conditions.shows_of_get?_along (mem_conditions_path_iff.1 ho) hb).imp ?_ ?_
      · exact fun ⟨p, hp, hb⟩ => ⟨p, mem_conditions_path_iff.2 hp, hb⟩
      · exact fun ⟨p, hp, hb⟩ => ⟨p, mem_conditions_path_iff.2 hp, hb⟩

end Trail

end DemandAlias
