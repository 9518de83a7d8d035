import DemandAlias.Proofs.Automaton.Listing
import DemandAlias.Proofs.Automaton.Replay

/-!
# What listeners learn

A listener learns the weights of the transitions of its topics by what is delivered to it, the
latest delivery counting for each transition (`Latest`). Whatever is done with the automaton,
what a listener has not learnt yet is queued, and nothing is delivered that it did not ask for or
that is not so at that time (`Informs`). So in the end it knows the transitions of its topics with
their weights, whether it registered before they were added, in between or afterwards
(`informs_replay`).
-/

namespace DemandAlias

namespace Automaton

variable {σ Λ ω κ : Type}
variable {ops : List (Operation σ Λ ω κ)} {t : Transition σ Λ} {k : κ} {w : ω}
  {d : Delivery σ Λ ω κ}
variable {ds : List (Delivery σ Λ ω κ)}

/-! ### The latest delivery -/

/-- The weight is the latest one of the transition that was delivered to the listener. -/
def Latest (ds : List (Delivery σ Λ ω κ)) (k : κ) (t : Transition σ Λ) (w : ω) : Prop :=
  ∃ earlier later, ds = earlier ++ ⟨k, t, w⟩ :: later ∧
    ∀ d ∈ later, ¬(d.listener = k ∧ d.transition = t)

theorem Latest.mem (h : Latest ds k t w) : ⟨k, t, w⟩ ∈ ds := by
  obtain ⟨earlier, later, rfl, -⟩ := h
  exact mem_append_right _ mem_cons_self

/-- The last delivery is the latest one if it is of the transition to the listener. -/
theorem latest_concat_iff :
    Latest (ds ++ [d]) k t w ↔
      d = ⟨k, t, w⟩ ∨ ¬(d.listener = k ∧ d.transition = t) ∧ Latest ds k t w := by
  constructor
  · rintro ⟨earlier, later, heq, hlater⟩
    rcases List.eq_nil_or_concat later with rfl | ⟨later, d', rfl⟩
    · exact .inl (List.cons.inj (List.append_inj_right' heq rfl)).1
    · rw [List.concat_eq_append, ← cons_append, ← append_assoc] at heq
      obtain ⟨rfl, hd⟩ := List.append_inj' heq rfl
      obtain rfl := (List.cons.inj hd).1
      rw [List.concat_eq_append] at hlater
      exact .inr ⟨hlater d (mem_append_right _ mem_cons_self), earlier, later, rfl,
        fun d' hd' => hlater d' (mem_append_left _ hd')⟩
  · rintro (rfl | ⟨hne, earlier, later, rfl, hlater⟩)
    · exact ⟨ds, [], rfl, fun d hd => nomatch hd⟩
    · refine ⟨earlier, later ++ [d], by simp, fun d' hd' => ?_⟩
      rcases mem_append.1 hd' with hd' | hd'
      · exact hlater d' hd'
      · exact mem_singleton.1 hd' ▸ hne

theorem Latest.eq {v : ω} (hv : Latest ds k t v) (hw : Latest ds k t w) : v = w := by
  induction ds using List.reverseRecOn with
  | nil => exact absurd hv.mem not_mem_nil
  | append_singleton _ _ ih =>
    rcases latest_concat_iff.1 hv with rfl | ⟨hne, hv⟩
    · rcases latest_concat_iff.1 hw with heq | ⟨hne, -⟩
      · cases heq
        rfl
      · exact absurd ⟨rfl, rfl⟩ hne
    · rcases latest_concat_iff.1 hw with rfl | ⟨-, hw⟩
      · exact absurd ⟨rfl, rfl⟩ hne
      · exact ih hv hw

variable [DecidableEq σ] [Hashable σ] [DecidableEq Λ] [Hashable Λ] [Weight ω] [DecidableEq ω]

/-! ### Registrations and events -/

theorem listens_replay {topic : Topic σ Λ} :
    (replay ops).automaton.Listens topic k ↔ .listen topic k ∈ ops := by
  induction ops using List.reverseRecOn with
  | nil => simp [replay, Listens, empty]
  | append_singleton ops op ih =>
    rw [replay_concat, mem_append, mem_singleton, ← ih]
    cases op with
    | add => simp [History.perform]
    | addInitial s | addFinal s => simp [History.perform, Listens, addInitial, addFinal, mention]
    | listen => simp [History.perform]
    | poll =>
      obtain ⟨events, heq⟩ := (replay ops).automaton_perform_poll
      simp [heq, Listens]

theorem mem_transitionsOf_replay_iff {topic : Topic σ Λ} :
    t ∈ (replay ops).automaton.transitionsOf topic ↔
      topic ∈ t.topics ∧ ((replay ops).automaton.weight? t).isSome = true := by
  rw [← mem_transitions_replay_iff, transitions_replay, transitionsOf_replay, mem_filter,
    Topic.mem_topics_iff, decide_eq_true_iff, and_comm]

theorem mem_transitions_replay_append (h : t ∈ (replay ops).automaton.transitions)
    (ops' : List (Operation σ Λ ω κ)) : t ∈ (replay (ops ++ ops')).automaton.transitions := by
  rw [transitions_replay, mem_arrivals_iff] at h ⊢
  obtain ⟨w, hadd, hw⟩ := h
  exact ⟨w, mem_append_left _ hadd, hw⟩

/-- Registered for a topic of the transition, which is stored. -/
def Concerns (ops : List (Operation σ Λ ω κ)) (k : κ) (t : Transition σ Λ) : Prop :=
  t ∈ (replay ops).automaton.transitions ∧ ∃ topic, .listen topic k ∈ ops ∧ topic.IsAbout t

theorem Concerns.append (h : Concerns ops k t) (ops' : List (Operation σ Λ ω κ)) :
    Concerns (ops ++ ops') k t :=
  ⟨mem_transitions_replay_append h.1 ops', h.2.imp fun _ => .imp_left (mem_append_left _)⟩

/-- Who is told of an addition listens to the transition added. -/
theorem concerns_of_queued_add {u : Transition σ Λ}
    (h : ((replay ops).automaton.add t w).Queued k u) :
    (replay ops).automaton.Queued k u ∨ Concerns (ops ++ [.add t w]) k u := by
  have hannounced : (∃ topic ∈ t.topics, (replay ops).automaton.Listens topic k) →
      t ∈ (replay (ops ++ [.add t w])).automaton.transitions →
      Concerns (ops ++ [.add t w]) k t := by
    rintro ⟨topic, htopic, hk⟩ ht
    exact ⟨ht, topic, mem_append_left _ (listens_replay.1 hk), (topic.mem_topics_iff t).1 htopic⟩
  rcases add_cases (replay ops).automaton t w with
    ⟨heq, -⟩ | ⟨old, hold, heq⟩ | ⟨hw, -, states, -, heq⟩
  · rw [heq] at h
    exact .inl h
  · rw [heq] at h
    refine ((queued_announce ..).1 h).imp_right ?_
    rintro ⟨rfl, hk⟩
    refine hannounced hk (mem_transitions_replay_append (mem_transitions_replay_iff.2 ?_) _)
    rw [hold]
    rfl
  · rw [heq] at h
    refine ((queued_announce ..).1 h).imp_right ?_
    rintro ⟨rfl, hk⟩
    refine hannounced hk ?_
    rw [transitions_replay, mem_arrivals_iff]
    exact ⟨w, mem_append_right _ mem_cons_self, hw⟩

/-- Events are of stored transitions, for listeners to them. -/
theorem concerns_of_queued (h : (replay ops).automaton.Queued k t) : Concerns ops k t := by
  induction ops using List.reverseRecOn with
  | nil => cases h
  | append_singleton ops op ih =>
    rw [replay_concat] at h
    cases op with
    | add => exact (concerns_of_queued_add h).elim (fun h => (ih h).append _) id
    | addInitial s | addFinal s => exact (ih h).append _
    | listen topic =>
      rcases (queued_listen ..).1 h with h | ⟨rfl, ht⟩
      · exact (ih h).append _
      · obtain ⟨htopic, ht⟩ := mem_transitionsOf_replay_iff.1 ht
        exact ⟨mem_transitions_replay_append (mem_transitions_replay_iff.2 ht) _, topic,
          mem_append_right _ mem_cons_self, (topic.mem_topics_iff t).1 htopic⟩
    | poll =>
      rcases (replay ops).perform_poll_cases with heq | ⟨d, a, hpoll, heq⟩
      · rw [heq] at h
        exact (ih h).append _
      · obtain ⟨events, rfl, hevents, -⟩ := poll?_eq_some hpoll
        rw [heq] at h
        refine (ih ?_).append _
        rw [Queued, hevents]
        exact mem_cons_of_mem _ h

/-! ### Deliveries -/

/-- The delivery is to a listener of the transition, with the weight that it has. -/
structure Due (ops : List (Operation σ Λ ω κ)) (d : Delivery σ Λ ω κ) : Prop where
  concerns : Concerns ops d.listener d.transition
  weight : (replay ops).automaton.weight? d.transition = some d.weight

theorem due_of_poll? {a : Automaton σ Λ ω κ} (h : (replay ops).automaton.poll? = some (d, a)) :
    Due ops d := by
  obtain ⟨events, -, hevents, hweight⟩ := poll?_eq_some h
  have hconcerns : Concerns ops d.listener d.transition := by
    refine concerns_of_queued ?_
    rw [Queued, hevents]
    exact mem_cons_self
  obtain ⟨w, hw⟩ := isSome_iff_exists.1 (mem_transitions_replay_iff.1 hconcerns.1)
  refine ⟨hconcerns, ?_⟩
  rw [hweight, Automaton.weight, hw]
  rfl

/-- Only asking for the next event delivers anything. -/
theorem deliveries_perform_cases (h : History σ Λ ω κ) (op : Operation σ Λ ω κ) :
    (h.perform op).deliveries = h.deliveries ∨ ∃ d a, op = .poll ∧
      h.automaton.poll? = some (d, a) ∧ (h.perform op).deliveries = h.deliveries ++ [d] := by
  cases op with
  | add | addInitial | addFinal | listen => exact .inl rfl
  | poll =>
    refine h.perform_poll_cases.imp (fun heq => by rw [heq]) ?_
    rintro ⟨d, a, hpoll, heq⟩
    exact ⟨d, a, rfl, hpoll, by rw [heq]⟩

/-- Each delivery was due when it was made. -/
theorem due_of_deliveries {earlier later : List (Delivery σ Λ ω κ)}
    (h : (replay ops).deliveries = earlier ++ d :: later) :
    ∃ before after, ops = before ++ .poll :: after ∧ (replay before).deliveries = earlier ∧
      (replay (before ++ [.poll])).deliveries = earlier ++ [d] ∧ Due before d := by
  induction ops using List.reverseRecOn generalizing later with
  | nil => exact absurd h (List.append_ne_nil_of_right_ne_nil _ (cons_ne_nil _ _)).symm
  | append_singleton ops op ih =>
    have hextend : ∀ later, (replay ops).deliveries = earlier ++ d :: later →
        ∃ before after, ops ++ [op] = before ++ .poll :: after ∧
          (replay before).deliveries = earlier ∧
            (replay (before ++ [.poll])).deliveries = earlier ++ [d] ∧ Due before d := by
      intro later h
      obtain ⟨before, after, rfl, hbefore⟩ := ih h
      exact ⟨before, after ++ [op], by simp, hbefore⟩
    rw [replay_concat] at h
    rcases deliveries_perform_cases (replay ops) op with heq | ⟨d', a, rfl, hpoll, heq⟩
    · exact hextend later (heq ▸ h)
    · -- Either this is the delivery, and it comes last, or it was made before.
      rcases List.eq_nil_or_concat later with rfl | ⟨later, d'', rfl⟩
      · rw [heq] at h
        obtain ⟨hearlier, hd⟩ := List.append_inj' h rfl
        obtain rfl := (List.cons.inj hd).1
        refine ⟨ops, [], rfl, hearlier, ?_, due_of_poll? hpoll⟩
        rw [replay_concat, heq, hearlier]
      · rw [heq, List.concat_eq_append, ← cons_append, ← append_assoc] at h
        exact hextend later (List.append_inj' h rfl).1

/-- Who was told of a transition listens to it. -/
theorem concerns_of_delivered (h : d ∈ (replay ops).deliveries) :
    Concerns ops d.listener d.transition := by
  obtain ⟨earlier, later, heq⟩ := List.append_of_mem h
  obtain ⟨before, after, rfl, -, -, hdue⟩ := due_of_deliveries heq
  exact hdue.concerns.append _

section

variable (ops : List (Operation σ Λ ω κ))

/-- Who listens to a transition is about to be told, or knows its weight. -/
theorem current_replay : (replay ops).automaton.Current (Latest (replay ops).deliveries) := by
  induction ops using List.reverseRecOn with
  | nil =>
    intro _ _ _ _ hk
    exact absurd (listens_replay.1 hk) not_mem_nil
  | append_singleton ops op ih =>
    rw [replay_concat]
    cases op with
    | add t w => exact current_add ih t w
    | addInitial s | addFinal s => exact ih
    | listen _ k => exact current_listen ih (fun t => mem_transitionsOf_replay_iff.2) k
    | poll =>
      rcases (replay ops).perform_poll_cases with heq | ⟨d, a, hpoll, heq⟩
      · rwa [heq]
      · rw [heq]
        intro topic k t w hk hw htopic
        refine (current_of_poll? ih hpoll topic k t w hk hw htopic).imp_right fun hdone => ?_
        refine latest_concat_iff.2 ?_
        by_cases hd : d.listener = k ∧ d.transition = t
        · -- The delivery has the weight of the transition, whatever was delivered before.
          obtain ⟨rfl, rfl⟩ := hd
          obtain ⟨events, rfl, -⟩ := poll?_eq_some hpoll
          have hweight : d.weight = w := some.inj ((due_of_poll? hpoll).weight.symm.trans hw)
          exact .inl (by rw [← hweight])
        · refine .inr ⟨hd, hdone.resolve_right ?_⟩
          rintro ⟨rfl, rfl, -⟩
          exact hd ⟨rfl, rfl⟩

/-! ### Histories written out -/

/-- An operation on an automaton written out. -/
def Listing.perform (l : Listing σ Λ ω κ) : Operation σ Λ ω κ → Listing σ Λ ω κ
  | .add t w => l.add t w
  | .addInitial _ | .addFinal _ => l
  | .listen topic k => l.listen topic k
  | .poll => { l with events := l.events.tail }

theorem listedBy_replay : (replay ops).automaton.ListedBy (ops.foldl Listing.perform {}) := by
  induction ops using List.reverseRecOn with
  | nil => exact listedBy_empty
  | append_singleton ops op ih =>
    rw [replay_concat, foldl_append]
    cases op with
    | add t w => exact ih.add t w
    | addInitial s | addFinal s => exact ih.states _ _ _
    | listen topic k => exact ih.listen topic k
    | poll =>
      cases hevents : (ops.foldl Listing.perform ({} : Listing σ Λ ω κ)).events with
      | nil =>
        have hnone : (replay ops).automaton.poll? = none := by
          unfold poll?
          rw [(Queue.pop?_eq_none_iff _).2 (ih.events.trans hevents)]
        simp only [History.perform, hnone]
        exact { ih with events := by simp [Listing.perform, ih.events, hevents] }
      | cons _ events =>
        obtain ⟨a, hpoll, ha⟩ := ih.poll hevents
        simp only [History.perform, hpoll]
        refine { ha with events := ?_ }
        rw [ha.events]
        simp [Listing.perform, hevents]

theorem hasEvents_replay :
    (replay ops).automaton.hasEvents = !(ops.foldl Listing.perform {}).events.isEmpty := by
  rw [hasEvents, Queue.isEmpty_eq, (listedBy_replay ops).events]

end

/-! ### Learning -/

/-- Who registered for a transition knows its weight or is about to be told, whatever is
    delivered or queued is for those who registered, and in the end they know just the transitions
    that they registered for. -/
structure Informs (ops : List (Operation σ Λ ω κ)) : Prop where
  current : ∀ topic k, .listen topic k ∈ ops → ∀ t ∈ (replay ops).automaton.transitions,
    topic.IsAbout t → (replay ops).automaton.Queued k t ∨
      ∃ w, (replay ops).automaton.weight? t = some w ∧ Latest (replay ops).deliveries k t w
  delivered : ∀ earlier d later, (replay ops).deliveries = earlier ++ d :: later →
    ∃ before after, ops = before ++ .poll :: after ∧ (replay before).deliveries = earlier ∧
      (replay (before ++ [.poll])).deliveries = earlier ++ [d] ∧ Due before d
  queued : ∀ k t, (replay ops).automaton.Queued k t → t ∈ (replay ops).automaton.transitions
  learnt : (replay ops).automaton.hasEvents = false → ∀ k t w,
    Latest (replay ops).deliveries k t w ↔ (replay ops).automaton.weight? t = some w ∧
      ∃ topic, .listen topic k ∈ ops ∧ topic.IsAbout t

theorem latest_iff_of_idle (hidle : (replay ops).automaton.hasEvents = false) (k : κ)
    (t : Transition σ Λ) (w : ω) :
    Latest (replay ops).deliveries k t w ↔ (replay ops).automaton.weight? t = some w ∧
      ∃ topic, .listen topic k ∈ ops ∧ topic.IsAbout t := by
  have htold : ∀ {v}, (replay ops).automaton.weight? t = some v →
      (∃ topic, .listen topic k ∈ ops ∧ topic.IsAbout t) →
      Latest (replay ops).deliveries k t v := by
    rintro v hv ⟨topic, hk, htopic⟩
    exact (current_replay ops).done_of_idle hidle (listens_replay.2 hk) hv
      ((topic.mem_topics_iff t).2 htopic)
  refine ⟨fun h => ?_, fun ⟨hw, hk⟩ => htold hw hk⟩
  obtain ⟨ht, hk⟩ := concerns_of_delivered h.mem
  obtain ⟨v, hv⟩ := isSome_iff_exists.1 (mem_transitions_replay_iff.1 ht)
  exact ⟨(htold hv hk).eq h ▸ hv, hk⟩

/-- Whatever is done with an automaton, its listeners are informed. What they have learnt when no
    event is left depends on the additions and on the topics they registered for, and not on when
    they registered. -/
theorem informs_replay (ops : List (Operation σ Λ ω κ)) :
    Informs ops ∧ ∀ ops' k, additions ops = additions ops' →
      (∀ topic, .listen topic k ∈ ops ↔ .listen topic k ∈ ops') →
      (replay ops).automaton.hasEvents = false → (replay ops').automaton.hasEvents = false →
      ∀ t w, Latest (replay ops).deliveries k t w ↔ Latest (replay ops').deliveries k t w := by
  refine ⟨⟨fun topic k hk t ht htopic => ?_, fun _ _ _ => due_of_deliveries,
    fun _ _ h => (concerns_of_queued h).1, latest_iff_of_idle⟩, ?_⟩
  · obtain ⟨w, hw⟩ := isSome_iff_exists.1 (mem_transitions_replay_iff.1 ht)
    refine (current_replay ops topic k t w (listens_replay.2 hk) hw
      ((topic.mem_topics_iff t).2 htopic)).imp_right fun h => ⟨w, hw, h⟩
  · intro ops' k hadditions hlisten hidle hidle' t w
    rw [latest_iff_of_idle hidle, latest_iff_of_idle hidle', weight?_replay, weight?_replay,
      weightsAdded, weightsAdded, hadditions]
    simp only [hlisten]

/-- The listener registers before the transition is added twice. -/
def listensFirst : List (Operation Nat Nat Distance Unit) :=
  [.listen .all (), .add ⟨0, 0, 1⟩ ⟨some 9⟩, .poll, .add ⟨0, 0, 1⟩ ⟨some 4⟩, .poll]

/-- The listener registers afterwards. -/
def listensLast : List (Operation Nat Nat Distance Unit) :=
  [.add ⟨0, 0, 1⟩ ⟨some 9⟩, .add ⟨0, 0, 1⟩ ⟨some 4⟩, .listen .all (), .poll]

/-- Who registers later learns the same, though it is told only once. -/
theorem latest_listensFirst_listensLast :
    Informs listensFirst ∧ Latest (replay listensFirst).deliveries () ⟨0, 0, 1⟩ ⟨some 4⟩ ∧
      ∀ t w, Latest (replay listensFirst).deliveries () t w ↔
        Latest (replay listensLast).deliveries () t w := by
  have hfirst : (replay listensFirst).automaton.hasEvents = false := by
    rw [hasEvents_replay]
    decide
  have hlast : (replay listensLast).automaton.hasEvents = false := by
    rw [hasEvents_replay]
    decide
  have hlisten : ∀ topic, .listen topic () ∈ listensFirst ↔ .listen topic () ∈ listensLast := by
    simp [listensFirst, listensLast]
  obtain ⟨hinforms, hsame⟩ := informs_replay listensFirst
  refine ⟨hinforms, (hinforms.learnt hfirst () _ _).2 ⟨?_, .all, mem_cons_self, trivial⟩,
    hsame listensLast () rfl hlisten hfirst hlast⟩
  rw [weight?_replay]
  rfl

end Automaton

end DemandAlias
