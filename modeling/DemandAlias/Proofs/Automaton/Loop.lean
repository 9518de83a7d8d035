import DemandAlias.Automaton.Loop
import DemandAlias.Proofs.Automaton.Replay
import Mathlib.Data.Fintype.Pigeonhole
import Mathlib.Order.WellFounded

/-!
# Loops are found

An automaton has no loop if one cannot go on for ever from any of its initial states: if
these are accessible by the relation `LeadsTo` that goes against the transitions. A search
that meets the way it came has found a loop (`exists_search_of_acc`), and one that does not
has only come to states from which one cannot go on for ever (`acc_of_search`). The way has
no state twice, so where the depth runs out there are no transitions left to follow.

As there are finitely many states, whoever goes on for ever comes to one of them twice. So a
loop is found exactly if there is a circle on the way from an initial state (`hasLoop_iff`,
`hasLoop_replay`).
-/

namespace DemandAlias

open Std

/-! ### Searching -/

namespace Automaton

variable {σ : Type}

theorem not_transGen_self {r : σ → σ → Prop} {s : σ} (h : Acc r s) :
    ¬Relation.TransGen r s s := by
  have htrans := h.transGen
  induction htrans with
  | intro s _ ih => exact fun hs => ih s hs h hs

/-- What each step keeps, and what it shows of its own element, holds after all of them. -/
theorem forall_of_foldlM {α β : Type} {f : β → α → Option β} {I : β → Prop} {P : α → Prop}
    {as : List α} (hf : ∀ {b b'}, ∀ a ∈ as, I b → f b a = some b' → I b' ∧ P a) {b b' : β}
    (hb : I b) (h : as.foldlM f b = some b') : I b' ∧ ∀ a ∈ as, P a := by
  induction as generalizing b with
  | nil =>
    obtain rfl : b = b' := some.inj h
    exact ⟨hb, fun a ha => nomatch ha⟩
  | cons a _ ih =>
    rw [List.foldlM_cons] at h
    obtain ⟨b₁, hb₁, h⟩ := bind_eq_some_iff.1 h
    obtain ⟨hI, ha⟩ := hf a mem_cons_self hb hb₁
    obtain ⟨hI', has⟩ := ih (fun a ha => hf a (mem_cons_of_mem _ ha)) hI h
    refine ⟨hI', fun a' ha' => ?_⟩
    rcases mem_cons.1 ha' with rfl | ha'
    · exact ha
    · exact has a' ha'

/-- If each step gives something, so do all of them. -/
theorem exists_foldlM {α β : Type} {f : β → α → Option β} {as : List α}
    (hf : ∀ b, ∀ a ∈ as, ∃ b', f b a = some b') (b : β) : ∃ b', as.foldlM f b = some b' := by
  induction as generalizing b with
  | nil => exact ⟨b, rfl⟩
  | cons a _ ih =>
    obtain ⟨b₁, hb₁⟩ := hf b a mem_cons_self
    obtain ⟨b', hb'⟩ := ih (fun b a ha => hf b a (mem_cons_of_mem _ ha)) b₁
    exact ⟨b', by rw [List.foldlM_cons, hb₁]; exact hb'⟩

variable [DecidableEq σ] [Hashable σ] {next : σ → List σ}

/-- If one cannot go on for ever, a search does not meet the way it came. -/
theorem exists_search_of_acc {path : List σ} {s : σ} (hs : Acc (fun t s => t ∈ next s) s)
    (hpath : ∀ p ∈ path, Relation.TransGen (fun t s => t ∈ next s) s p) (depth : Nat)
    (done : HashSet σ) : ∃ done', search next depth path done s = some done' := by
  induction depth generalizing path done s with
  | zero => exact ⟨done, rfl⟩
  | succ depth ih =>
    suffices hbehind : ∃ behind, (next s).foldlM (fun done t =>
        if (s :: path).contains t then none
        else if done.contains t then some done else search next depth (s :: path) done t) done =
          some behind by
      obtain ⟨behind, hbehind⟩ := hbehind
      exact ⟨behind.insert s, by rw [search]; exact congrArg (Option.map _) hbehind⟩
    refine exists_foldlM (fun done t ht => ?_) done
    -- All that is on the way leads to `t`, so meeting it again would close a cycle.
    have hback : ∀ p ∈ s :: path, Relation.TransGen (fun t s => t ∈ next s) t p := fun p hp => by
      rcases mem_cons.1 hp with rfl | hp
      · exact .single ht
      · exact .trans (.single ht) (hpath p hp)
    have hacc := hs.inv ht
    split
    · next hmet => exact absurd (hback t (List.contains_iff_mem.1 hmet)) (not_transGen_self hacc)
    · split
      · exact ⟨done, rfl⟩
      · exact ih hacc hback done

/-- A search that does not meet the way it came has only come to states from which one
    cannot go on for ever. -/
theorem acc_of_search {states : List σ} (hstates : ∀ {s t}, t ∈ next s → s ∈ states)
    {depth : Nat} {path : List σ} {done done' : HashSet σ} {s : σ}
    (hdepth : depth + path.length = states.length) (hnodup : (s :: path).Nodup)
    (hpath : ∀ p ∈ path, p ∈ states) (hdone : ∀ p ∈ done, Acc (fun t s => t ∈ next s) p)
    (h : search next depth path done s = some done') :
    (∀ p ∈ done', Acc (fun t s => t ∈ next s) p) ∧ Acc (fun t s => t ∈ next s) s := by
  induction depth generalizing path done done' s with
  | zero =>
    obtain rfl : done = done' := some.inj h
    -- All states are on the way already, so `s` is none of them.
    refine ⟨hdone, .intro s fun t ht => ?_⟩
    have hsub : s :: path ⊆ states := fun p hp =>
      (mem_cons.1 hp).elim (fun heq => heq ▸ hstates ht) (hpath p)
    have hle := hnodup.length_le_of_subset hsub
    rw [length_cons] at hle
    omega
  | succ _ ih =>
    rw [search] at h
    obtain ⟨behind, hbehind, rfl⟩ := map_eq_some_iff.1 h
    -- `s` itself is added last, when all that comes next is known to end.
    suffices hnext : (∀ p ∈ behind, Acc (fun t s => t ∈ next s) p) ∧
        ∀ t ∈ next s, Acc (fun t s => t ∈ next s) t by
      have hs : Acc (fun t s => t ∈ next s) s := .intro s hnext.2
      refine ⟨fun p hp => ?_, hs⟩
      rcases HashSet.mem_insert.1 hp with heq | hp
      · exact eq_of_beq heq ▸ hs
      · exact hnext.1 p hp
    refine forall_of_foldlM (I := fun done => ∀ p ∈ done, Acc (fun t s => t ∈ next s) p)
      (fun {done done'} t ht hdone hstep => ?_) hdone hbehind
    split at hstep
    · cases hstep
    · next hmet =>
      split at hstep
      · next hknown =>
        obtain rfl : done = done' := some.inj hstep
        exact ⟨hdone, hdone t (HashSet.contains_iff_mem.1 hknown)⟩
      · refine ih ?_ (nodup_cons.2 ⟨fun hmem => hmet (List.contains_iff_mem.2 hmem), hnodup⟩)
          (fun p hp => ?_) hdone hstep
        · rw [length_cons]
          omega
        · exact (mem_cons.1 hp).elim (fun heq => heq ▸ hstates ht) (hpath p)

/-! ### Automata -/

variable {Λ ω κ : Type} [DecidableEq Λ] [Hashable Λ]

/-- The state `p` is one transition away from `q` that is not silent. -/
def LeadsTo (a : Automaton σ Λ ω κ) (silent : Λ → Bool) (p q : σ) : Prop :=
  ∃ l, silent l = false ∧ ⟨q, l, p⟩ ∈ a.transitions

/-- The state `q` is one transition away from `p` that is not silent. -/
def Goes (a : Automaton σ Λ ω κ) (silent : Λ → Bool) (p q : σ) : Prop :=
  ∃ l, silent l = false ∧ ⟨p, l, q⟩ ∈ a.transitions

/-- The transitions out of each state are on file, and there are no others. -/
structure Filed (a : Automaton σ Λ ω κ) : Prop where
  mem_out_iff : ∀ q t, t ∈ a.transitionsOf (.out q) ↔ t ∈ a.transitions ∧ t.source = q
  sources : ∀ t ∈ a.transitions, t.source ∈ a.states

theorem Consistent.filed [Weight ω] {a : Automaton σ Λ ω κ} (h : a.Consistent) : a.Filed where
  mem_out_iff q t := by
    rw [h.mem_transitionsOf_iff, Topic.mem_topics_iff]
    rfl
  sources _ ht := h.source_mem_states ht

variable {a : Automaton σ Λ ω κ}

theorem mem_nextStates_iff (h : a.Filed) (silent : Λ → Bool) (p q : σ) :
    p ∈ a.nextStates silent q ↔ a.LeadsTo silent p q := by
  simp only [nextStates, mem_filterMap, h.mem_out_iff]
  constructor
  · rintro ⟨⟨source, label, target⟩, ⟨ht, rfl⟩, hnext⟩
    split at hnext
    · cases hnext
    · next hloud =>
      cases hnext
      exact ⟨label, eq_false_iff.2 hloud, ht⟩
  · rintro ⟨l, hloud, ht⟩
    exact ⟨_, ⟨ht, rfl⟩, by simp [hloud]⟩

/-- No loop is found exactly if one cannot go on for ever from any initial state. -/
theorem hasLoop_eq_false_iff (h : a.Filed) (silent : Λ → Bool) :
    a.hasLoop silent = false ↔ ∀ q ∈ a.initial, Acc (a.LeadsTo silent) q := by
  have hnext : (fun p q => p ∈ a.nextStates silent q) = a.LeadsTo silent := by
    funext p q
    exact propext (mem_nextStates_iff h silent p q)
  rw [hasLoop, Option.isNone_eq_false_iff, isSome_iff_exists]
  constructor
  · rintro ⟨done, hdone⟩
    have hempty : ∀ p ∈ (∅ : HashSet σ), Acc (a.LeadsTo silent) p := fun p hp =>
      absurd hp HashSet.not_mem_empty
    refine (forall_of_foldlM (I := fun done => ∀ p ∈ done, Acc (a.LeadsTo silent) p)
      (fun {done done'} s _ hacc hstep => ?_) hempty hdone).2
    · split at hstep
      · next hknown =>
        obtain rfl : done = done' := some.inj hstep
        exact ⟨hacc, hacc s (HashSet.contains_iff_mem.1 hknown)⟩
      · have hstates : ∀ {s t}, t ∈ a.nextStates silent s → s ∈ a.states.toList := fun ht => by
          obtain ⟨l, -, ht⟩ := (mem_nextStates_iff h silent _ _).1 ht
          exact h.sources _ ht
        rw [← hnext] at hacc ⊢
        refine acc_of_search hstates ?_ (nodup_cons.2 ⟨not_mem_nil, nodup_nil⟩)
          (fun p hp => nomatch hp) hacc hstep
        simp [OrderedSet.size, OrderedSet.toList]
  · intro hacc
    refine exists_foldlM (fun done s hs => ?_) ∅
    split
    · exact ⟨done, rfl⟩
    · have hs : Acc (fun p q => p ∈ a.nextStates silent q) s := hnext ▸ hacc s hs
      exact exists_search_of_acc hs (fun p hp => absurd hp not_mem_nil) _ done

/-! ### Circles -/

omit [Hashable σ] in
/-- Whoever goes on for ever among finitely many states comes to one of them twice. -/
theorem exists_circle {r : σ → σ → Prop} {states : List σ} (hr : ∀ {p q}, r p q → p ∈ states)
    {f : Nat → σ} (hf : ∀ n, r (f n) (f (n + 1))) :
    ∃ s, Relation.ReflTransGen r (f 0) s ∧ Relation.TransGen r s s := by
  have hpath : ∀ {m n}, m ≤ n → Relation.ReflTransGen r (f m) (f n) := fun {m n} hle => by
    induction n, hle using Nat.le_induction with
    | base => exact .refl
    | succ n _ ih => exact ih.tail (hf n)
  obtain ⟨m, n, hne, heq⟩ := Finite.exists_ne_map_eq_of_infinite fun n =>
    (⟨f n, hr (hf n)⟩ : {s // s ∈ states})
  have heq : f m = f n := congrArg Subtype.val heq
  have hround : ∀ {m n}, m < n → f m = f n → Relation.TransGen r (f m) (f m) :=
    fun {m n} hlt heq => .head' (hf m) (heq ▸ hpath hlt)
  rcases Nat.lt_or_gt_of_ne hne with hlt | hlt
  · exact ⟨f m, hpath (Nat.zero_le m), hround hlt heq⟩
  · exact ⟨f n, hpath (Nat.zero_le n), hround hlt heq.symm⟩

/-- One can go on for ever from an initial state exactly if there is a circle on the way. -/
theorem hasLoop_iff (h : a.Filed) (silent : Λ → Bool) :
    a.hasLoop silent = true ↔ ∃ i ∈ a.initial, ∃ s,
      Relation.ReflTransGen (a.Goes silent) i s ∧ Relation.TransGen (a.Goes silent) s s := by
  rw [← Bool.not_eq_false, hasLoop_eq_false_iff h]
  constructor
  · intro hloop
    obtain ⟨i, hi, hacc⟩ : ∃ i ∈ a.initial, ¬Acc (a.LeadsTo silent) i := by simpa using hloop
    obtain ⟨f, rfl, hf⟩ := not_acc_iff_exists_descending_chain.1 hacc
    exact ⟨f 0, hi, exists_circle (fun ⟨_, _, ht⟩ => h.sources _ ht) hf⟩
  · rintro ⟨i, hi, s, hpath, hcircle⟩ hacc
    have hs : Acc (a.LeadsTo silent) s := by
      clear hcircle
      induction hpath with
      | refl => exact hacc i hi
      | tail _ hstep ih => exact ih.inv hstep
    exact not_transGen_self hs hcircle.swap

/-! ### Histories -/

theorem filed_replay [Weight ω] [DecidableEq ω] (ops : List (Operation σ Λ ω κ)) :
    (replay ops).automaton.Filed where
  mem_out_iff q t := by
    rw [transitionsOf_replay, transitions_replay, mem_filter, decide_eq_true_iff]
    rfl
  sources _ := source_mem_states_replay

/-- Whatever is done with an automaton, a loop is found exactly if from an initial state one
    can come, by any number of transitions that are not silent, to a state that leads back to
    itself by one or more of them. -/
theorem hasLoop_replay [Weight ω] [DecidableEq ω] (ops : List (Operation σ Λ ω κ))
    (silent : Λ → Bool) : (replay ops).automaton.hasLoop silent = true ↔
      ∃ i ∈ (replay ops).automaton.initial, ∃ s,
        Relation.ReflTransGen ((replay ops).automaton.Goes silent) i s ∧
          Relation.TransGen ((replay ops).automaton.Goes silent) s s :=
  hasLoop_iff (filed_replay ops) silent

end Automaton

end DemandAlias
