import DemandAlias.Proofs.Weight

/-!
# What trails tell of ways

A way of the tracked object goes from node to node, and at a branch that it comes by it may
take one outcome or the other. The trail of some ways has a list of nodes that counts no
later than those of any of them, and the outcomes it knows are taken on each of them
(`Trail.Tells`). Combining and extending keep to that (`Trail.accounting_tells`), as lists
are compared by their lengths first: whatever is put before or after two lists, they compare
as before.
-/

namespace DemandAlias

variable {a b : List Node}

/-! ### Outcomes -/

namespace Conditions

variable {n : Node} {o : Outcome}

/-- An outcome known after one more is known was so before, or it is the new one, or the new
    one comes after another. -/
theorem eq_or_mem_of_mem_insertEntry {entries : List (Node × Outcome)} {e : Node × Outcome}
    (h : e ∈ insertEntry n o entries) :
    e ∈ entries ∨ e = (n, o) ∨ ∃ p, (e.1, p) ∈ entries ∧ e.2 = p.along o ∧ e.1 = n := by
  fun_induction insertEntry n o entries with
  | case1 => exact .inr (.inl (mem_singleton.1 h))
  | case2 =>
    rcases mem_cons.1 h with rfl | h
    · exact .inr (.inl rfl)
    · exact .inl h
  | case3 _ p _ heq =>
    rcases mem_cons.1 h with rfl | h
    · exact .inr (.inr ⟨p, mem_cons_self, rfl, (Std.LawfulEqOrd.eq_of_compare heq).symm⟩)
    · exact .inl (mem_cons_of_mem _ h)
  | case4 _ _ _ _ ih =>
    rcases mem_cons.1 h with rfl | h
    · exact .inl mem_cons_self
    · rcases ih h with h | h | ⟨p', hp', h⟩
      · exact .inl (mem_cons_of_mem _ h)
      · exact .inr (.inl h)
      · exact .inr (.inr ⟨p', mem_cons_of_mem _ hp', h⟩)

theorem mem_of_mem_foldl_insertWith {c : Conditions} {ds : List (Node × Outcome)}
    (h : (n, o) ∈ (ds.foldl (fun c (m, p) => c.insertWith m p) c).entries) (ho : o ≠ .both) :
    (n, o) ∈ c.entries ∨ (n, o) ∈ ds := by
  induction ds generalizing c with
  | nil => exact .inl h
  | cons e _ ih =>
    obtain ⟨m, p⟩ := e
    rcases ih h with h | h
    · rcases eq_or_mem_of_mem_insertEntry h with h | h | ⟨p', hp', hp, -⟩
      · exact .inl h
      · exact .inr (h ▸ mem_cons_self)
      · -- Two outcomes in a row are one only if they are the same.
        unfold Outcome.along at hp
        dsimp only at hp hp'
        split at hp
        · exact .inl (hp ▸ hp')
        · exact absurd hp ho
    · exact .inr (mem_cons_of_mem _ h)

/-- A branch goes one way on two ways in a row only if it does so on one of them. -/
theorem mem_of_mem_along {c d : Conditions} (h : (n, o) ∈ (c.along d).entries) (ho : o ≠ .both) :
    (n, o) ∈ c.entries ∨ (n, o) ∈ d.entries :=
  mem_of_mem_foldl_insertWith h ho

theorem mem_of_mem_agreed {c d : Conditions} (h : (n, o) ∈ (c.agreed d).entries) :
    (n, o) ∈ c.entries ∧ (n, o) ∈ d.entries := by
  obtain ⟨hc, hd⟩ := mem_filter.1 h
  refine ⟨hc, ?_⟩
  have hget : d.entries.lookup n = some o := beq_iff_eq.1 hd
  obtain ⟨before, after, heq, -⟩ := List.lookup_eq_some_iff.1 hget
  rw [heq]
  exact mem_append_right _ mem_cons_self

end Conditions

/-! ### Lists of nodes -/

namespace Trail

open Std

/-- The one list of nodes counts before the other. -/
def Precedes (a b : List Node) : Prop := compare (a.length, a) (b.length, b) = .lt

theorem Precedes.length_le (h : Precedes a b) : a.length ≤ b.length := by
  have hthen : (compare a.length b.length).then (compare a b) = .lt := h
  cases hlength : compare a.length b.length with
  | lt => exact Nat.le_of_lt (Nat.compare_eq_lt.1 hlength)
  | eq => exact Nat.le_of_eq (Nat.compare_eq_eq.1 hlength)
  | gt =>
    rw [hlength] at hthen
    cases hthen

theorem Precedes.trans {a b c : List Node} (h : Precedes a b) (h' : Precedes b c) :
    Precedes a c := TransCmp.lt_trans h h'

theorem not_precedes_self (a : List Node) : ¬Precedes a a := fun h => by
  have hself : compare (a.length, a) (a.length, a) = .eq := ReflCmp.compare_self
  rw [Precedes, hself] at h
  cases h

/-- The shorter of two lists is the first one, or it is the second one and counts before
    the first. -/
theorem shorter_cases (a b : List Node) : shorter a b = a ∨ Precedes b a ∧ shorter a b = b := by
  unfold shorter
  split
  · exact .inl rfl
  · next hle =>
    exact .inr ⟨OrientedCmp.lt_of_gt (Ordering.isLE_eq_false.1 (eq_false_iff.2 hle)), rfl⟩

theorem precedes_iff (a b : List Node) :
    Precedes a b ↔ a.length < b.length ∨ a.length = b.length ∧ compare a b = .lt := by
  have hthen : Precedes a b ↔ (compare a.length b.length).then (compare a b) = .lt := Iff.rfl
  rw [hthen]
  cases hlength : compare a.length b.length with
  | lt => simp [Nat.compare_eq_lt.1 hlength]
  | eq => simp [Nat.compare_eq_eq.1 hlength]
  | gt =>
    have hlt := Nat.compare_eq_gt.1 hlength
    exact iff_of_false nofun (by omega)

theorem compare_append_left (c a b : List Node) : compare (c ++ a) (c ++ b) = compare a b := by
  induction c with
  | nil => rfl
  | cons n c ih => rw [cons_append, cons_append, List.compare_cons_cons, ih,
      ReflOrd.compare_self, Ordering.eq_then]

theorem compare_append_right (c : List Node) (h : a.length = b.length) :
    compare (a ++ c) (b ++ c) = compare a b := by
  induction a generalizing b with
  | nil =>
    rw [List.length_eq_zero_iff.1 h.symm]
    simp
  | cons n a ih =>
    cases b with
    | nil => cases h
    | cons =>
      rw [cons_append, cons_append, List.compare_cons_cons, List.compare_cons_cons,
        ih (Nat.succ.inj h)]

theorem Precedes.append_left (h : Precedes a b) (c : List Node) :
    Precedes (c ++ a) (c ++ b) := by
  rw [precedes_iff] at h ⊢
  rw [compare_append_left, length_append, length_append]
  exact h.imp (Nat.add_lt_add_left · _) (And.imp_left (congrArg (c.length + ·)))

theorem Precedes.append_right (h : Precedes a b) (c : List Node) :
    Precedes (a ++ c) (b ++ c) := by
  rw [precedes_iff] at h ⊢
  rw [length_append, length_append]
  rcases h with h | ⟨hlength, h⟩
  · exact .inl (by omega)
  · exact .inr ⟨by omega, compare_append_right c hlength ▸ h⟩

/-- The one list of nodes is the other or counts before it. -/
def NoLater (a b : List Node) : Prop := a = b ∨ Precedes a b

theorem NoLater.trans {a b c : List Node} (h : NoLater a b) (h' : NoLater b c) : NoLater a c := by
  rcases h with rfl | h
  · exact h'
  · rcases h' with rfl | h'
    · exact .inr h
    · exact .inr (h.trans h')

theorem NoLater.antisymm (h : NoLater a b) (h' : NoLater b a) : a = b := by
  rcases h with rfl | h
  · rfl
  · rcases h' with rfl | h'
    · rfl
    · exact absurd (h.trans h') (not_precedes_self a)

theorem NoLater.append {a a' b b' : List Node} (h : NoLater a b) (h' : NoLater a' b') :
    NoLater (a ++ a') (b ++ b') := by
  have hleft : NoLater (a ++ a') (b ++ a') := h.imp (congrArg (· ++ a')) (·.append_right a')
  have hright : NoLater (b ++ a') (b ++ b') := h'.imp (congrArg (b ++ ·)) (·.append_left b)
  exact hleft.trans hright

theorem noLater_of_sublist (h : a.Sublist b) : NoLater a b := by
  rcases Nat.eq_or_lt_of_le h.length_le with heq | hlt
  · exact .inl (h.eq_of_length heq)
  · exact .inr ((precedes_iff a b).2 (.inl hlt))

theorem shorter_noLater_left (a b : List Node) : NoLater (shorter a b) a := by
  rcases shorter_cases a b with heq | ⟨hprecedes, heq⟩
  · exact .inl heq
  · exact .inr (by rwa [heq])

theorem shorter_noLater_right (a b : List Node) : NoLater (shorter a b) b := by
  unfold shorter
  split
  · next hle =>
    cases hcompare : compare (a.length, a) (b.length, b) with
    | lt => exact .inr hcompare
    | eq => exact .inl (congrArg Prod.snd (LawfulEqOrd.eq_of_compare hcompare))
    | gt =>
      rw [hcompare] at hle
      cases hle
  · exact .inl rfl

theorem shorter_eq_left (h : NoLater a b) : shorter a b = a := by
  rcases shorter_cases a b with heq | ⟨hprecedes, heq⟩
  · exact heq
  · rcases h with rfl | h
    · exact heq
    · exact absurd (h.trans hprecedes) (not_precedes_self a)

/-! ### Ways -/

/-- The trail tells of a way that makes the given hops: its nodes count no later than those
    the way comes to, and the outcomes it knows are taken by the way. -/
def Tells (w : Trail) (hops : List (Node × Node)) : Prop :=
  w ≠ .zero ∧ NoLater w.nodes (hops.map Prod.snd) ∧
    ∀ n o, (n, o) ∈ w.conditions → o ≠ .both → ∃ m, (n, m) ∈ hops ∧ Weighing.outcome? n m = some o

/-- What a trail tells of ways is kept by combining and extending. -/
theorem accounting_tells : Weight.Accounting Tells where
  ne_zero h := h.1
  one := ⟨nofun, .inl rfl, fun _ _ h => nomatch h⟩
  extend {a b es fs} := by
    rintro ⟨ha, hanodes, hataken⟩ ⟨hb, hbnodes, hbtaken⟩
    cases a with
    | zero => exact absurd rfl ha
    | path =>
      cases b with
      | zero => exact absurd rfl hb
      | path =>
        refine ⟨nofun, ?_, fun n o hmem ho => ?_⟩
        · rw [map_append]
          exact hanodes.append hbnodes
        · rcases Conditions.mem_of_mem_along hmem ho with hmem | hmem
          · obtain ⟨m, hm, houtcome⟩ := hataken n o hmem ho
            exact ⟨m, mem_append_left _ hm, houtcome⟩
          · obtain ⟨m, hm, houtcome⟩ := hbtaken n o hmem ho
            exact ⟨m, mem_append_right _ hm, houtcome⟩
  left {a es} b h := by
    obtain ⟨ha, hnodes, htaken⟩ := h
    cases a with
    | zero => exact absurd rfl ha
    | path ns =>
      cases b with
      | zero => exact ⟨ha, hnodes, htaken⟩
      | path ms => exact ⟨nofun, (shorter_noLater_left ns ms).trans hnodes,
          fun n o hmem => htaken n o (Conditions.mem_of_mem_agreed hmem).1⟩
  right a b es h := by
    obtain ⟨hb, hnodes, htaken⟩ := h
    cases b with
    | zero => exact absurd rfl hb
    | path ms =>
      cases a with
      | zero => exact ⟨hb, hnodes, htaken⟩
      | path ns => exact ⟨nofun, (shorter_noLater_right ns ms).trans hnodes,
          fun n o hmem => htaken n o (Conditions.mem_of_mem_agreed hmem).2⟩
  skip hsub h := ⟨h.1, h.2.1.trans (noLater_of_sublist (hsub.map _)), fun n o hmem ho =>
    (h.2.2 n o hmem ho).imp fun _ hm => ⟨hsub.subset hm.1, hm.2⟩⟩

/-- The weight of a move tells of it. -/
theorem tells_step (source target : Node) :
    Tells (Weighing.trail.step source target) [(source, target)] := by
  simp only [Weighing.trail]
  split
  · next o houtcome =>
    refine ⟨fun h => Trail.noConfusion h, .inl rfl, fun n o' hmem _ => ?_⟩
    cases mem_singleton.1 hmem
    exact ⟨target, mem_singleton_self _, houtcome⟩
  · exact ⟨fun h => Trail.noConfusion h, .inl rfl, fun _ _ h => absurd h not_mem_nil⟩

theorem tells_enter (source target : Node) :
    Tells (Weighing.trail.enter source target) [(source, target)] :=
  ⟨nofun, .inl rfl, fun _ _ h => nomatch h⟩

/-! ### Nodes of trails -/

theorem nodes_combine (a b : Trail) :
    (combine a b).nodes = a.nodes ∨ (combine a b).nodes = b.nodes := by
  cases a with
  | zero => exact .inr (by cases b <;> rfl)
  | path ns =>
    cases b with
    | zero => exact .inl rfl
    | path ms => exact (shorter_cases ns ms).imp_right And.right

theorem nodes_extend {a b : Trail} (ha : a ≠ .zero) (hb : b ≠ .zero) :
    (extend a b).nodes = a.nodes ++ b.nodes := by
  cases a with
  | zero => exact absurd rfl ha
  | path =>
    cases b with
    | zero => exact absurd rfl hb
    | path => rfl

theorem nodes_step (source target : Node) : (Weighing.trail.step source target).nodes = [target] := by
  simp only [Weighing.trail]
  split <;> rfl

end Trail

/-! ### Contradictions -/

namespace Weighing

/-- A trail that contradicts the creation of its object knows an outcome, of a branch on the
    local that holds the object, that cannot come out. -/
theorem exists_of_contradicts {q : ForwardQuery} {w : Trail} (h : trail.contradicts q w = true) :
    ∃ n condition place value, n.stmt.action = .branch condition place ∧ condition.lhs = n.var ∧
      evaluate? q condition = some value ∧
      (n, if value then Outcome.skipped else .taken) ∈ w.conditions := by
  obtain ⟨⟨n, o⟩, hmem, himpossible⟩ := any_eq_true.1 h
  simp only [isImpossible] at himpossible
  split at himpossible
  · next condition place haction =>
    obtain ⟨hlhs, hvalue⟩ := Bool.and_eq_true_iff.1 himpossible
    refine ⟨n, condition, place, ?_⟩
    split at hvalue
    · next value hevaluate =>
      refine ⟨value, haction, eq_of_beq hlhs, hevaluate, ?_⟩
      cases value
      · exact hmem
      · cases hvalue
    · next value hevaluate =>
      refine ⟨value, haction, eq_of_beq hlhs, hevaluate, ?_⟩
      cases value
      · cases hvalue
      · exact hmem
    · cases hvalue
  · cases himpossible

end Weighing

end DemandAlias
