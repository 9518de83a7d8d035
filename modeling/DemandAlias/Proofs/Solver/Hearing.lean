import DemandAlias.Proofs.Run.Persistence

/-!
# Rules know the latest weights

Whenever the weight of a transition changes, its rules are told again, and make their changes
with the new weight. So once a solver has nothing left to do, each rule has made its changes
of each transition with the weight that the transition has in the end (`Heard`).
-/

namespace DemandAlias.Solver

variable {ω : Type} [Weight ω] {s : Solver ω} {x : Change ω}

/-- What the change adds to the automaton of calls is there, transitions with a weight that
    includes that of the change. -/
def Holds (s : Solver ω) : Change ω → Prop
  | .call t w => ∃ v, s.calls.weight? t = some v ∧ Weight.Includes v w
  | .callRule topic rule => s.calls.Listens topic rule
  | _ => True

/-- Every rule has made its changes of every transition with the weight that the transition
    has now, or is about to be told of it. The first transition is there. -/
structure Heard (c : Setting ω) (s : Solver ω) : Prop where
  consistent : s.calls.Consistent
  first : s.Holds (.call (callAt s.seed s.bottom) one)
  current : s.calls.Current fun rule t w => ∀ x ∈ rule.changes c s.bottom t w, s.Holds x

theorem Holds.congr {s' : Solver ω} (hcalls : ∀ t, s'.calls.weight? t = s.calls.weight? t)
    (hrules : ∀ {topic rule}, s.calls.Listens topic rule → s'.calls.Listens topic rule)
    (h : s.Holds x) : s'.Holds x := by
  cases x with
  | call t =>
    obtain ⟨v, hv, hw⟩ := h
    exact ⟨v, (hcalls t).trans hv, hw⟩
  | callRule => exact hrules h
  | _ => trivial

variable [DecidableEq ω]

/-! ### Changes -/

/-- What is there stays there. -/
theorem Holds.make (h : s.Holds x) (y : Change ω) : (s.make y).Holds x := by
  rcases calls_make_cases s y with heq | ⟨q, heq⟩ | ⟨t, w, -, heq⟩ | ⟨topic, rule, -, heq⟩
  · exact h.congr (fun _ => by rw [heq]) fun hk => by rwa [heq]
  · exact h.congr (fun _ => by rw [heq]; rfl) fun hk => by rw [heq]; exact hk
  · cases x with
    | call =>
      obtain ⟨v, hv, hw'⟩ := h
      obtain ⟨v', hv', hv''⟩ := Automaton.exists_includes_add hv t w
      exact ⟨v', by rw [heq, hv'], hv''.trans hw'⟩
    | callRule topic rule =>
      show (s.make y).calls.Listens topic rule
      rw [heq]
      exact (Automaton.listens_add ..).2 h
    | _ => trivial
  · exact h.congr (fun _ => by rw [heq, Automaton.weight?_listen]) fun hk => by
      rw [heq]
      exact (Automaton.listens_listen ..).2 (.inl hk)

theorem Holds.makeAll (h : s.Holds x) (ys : List (Change ω)) :
    (s.makeAll ys).Holds x := by
  induction ys generalizing s with
  | nil => exact h
  | cons y _ ih => exact ih (h.make y)

/-- A change that is made is there. -/
theorem holds_make (hx : s.Proper x) : (s.make x).Holds x := by
  cases x with
  | call t => exact Automaton.exists_weight?_add s.calls t hx.1
  | callRule => exact (Automaton.listens_listen ..).2 (.inr ⟨rfl, rfl⟩)
  | _ => trivial

theorem holds_makeAll [ZeroFree ω] (hs : s.Sound) {xs : List (Change ω)}
    (hxs : ∀ x ∈ xs, s.Proper x) : ∀ x ∈ xs, (s.makeAll xs).Holds x := by
  induction xs generalizing s with
  | nil => exact fun x hx => nomatch hx
  | cons y ys ih =>
    have hy := performs_make hs (hxs y mem_cons_self)
    intro x hx
    rcases mem_cons.1 hx with rfl | hx
    · exact (holds_make (hxs x mem_cons_self)).makeAll ys
    · exact ih hy.sound
        (fun z hz => (hxs z (mem_cons_of_mem _ hz)).grows hy.extension.toGrows) x hx

variable {done : CallRule ω → CallTransition → ω → Prop}

theorem current_make (hc : s.calls.Consistent) (h : s.calls.Current done) (x : Change ω) :
    (s.make x).calls.Current done := by
  rcases calls_make_cases s x with heq | ⟨q, heq⟩ | ⟨t, w, -, heq⟩ | ⟨topic, rule, -, heq⟩
  · rwa [heq]
  · rw [heq]
    exact h
  · rw [heq]
    exact Automaton.current_add h t w
  · rw [heq]
    exact Automaton.current_listen h (fun t => (hc.stored topic t).2) rule

variable [ZeroFree ω]

theorem consistent_make (h : s.calls.Consistent) (x : Change ω) : (s.make x).calls.Consistent := by
  rcases calls_make_cases s x with heq | ⟨q, heq⟩ | ⟨t, w, -, heq⟩ | ⟨topic, rule, -, heq⟩
  · rwa [heq]
  · rw [heq]
    exact Automaton.consistent_addInitial h q
  · rw [heq]
    exact Automaton.consistent_add h t w
  · rw [heq]
    exact Automaton.consistent_listen h topic rule

theorem current_makeAll (hc : s.calls.Consistent) (h : s.calls.Current done)
    (xs : List (Change ω)) :
    (s.makeAll xs).calls.Consistent ∧ (s.makeAll xs).calls.Current done := by
  induction xs generalizing s with
  | nil => exact ⟨hc, h⟩
  | cons x _ ih => exact ih (consistent_make hc x) (current_make hc h x)

/-! ### All a solver does -/

variable {c : Setting ω}

theorem heard_start (c : Setting ω) (id : SolverId) (direction : Direction) (seed : Node) :
    (start id direction seed : Solver ω).Heard c where
  consistent := Automaton.consistent_seeded ..
  first := Automaton.exists_weight?_add _ _ ZeroFree.one_ne_zero
  current := Automaton.current_seeded _ _ _ _

theorem Heard.make (h : s.Heard c) (x : Change ω) : (s.make x).Heard c where
  consistent := consistent_make h.consistent x
  first := by
    rw [seed_make, bottom_make]
    exact h.first.make x
  current := (current_make h.consistent h.current x).mono fun _ _ _ hdone y hy =>
    (hdone y (bottom_make s x ▸ hy)).make x

/-- Rules know the latest weights, whatever a solver does. -/
theorem persists_heard (hc : c.weighing.ZeroFree) : Persists c Sound (Heard c) where
  note h _ _ _ _ _ _ := { h with }
  make h _ := h.make _
  fields h _ := { h with }
  calls {s d calls} hs h hpoll last := by
    obtain ⟨hmem, hw, topic, -, hk⟩ := delivered_of_poll? hs.calls hpoll
    have ht := takes_calls hs hpoll
    have hproper : ∀ x ∈ d.listener.changes c s.bottom d.transition d.weight,
        Proper { s with calls, last } x := fun x hx =>
      (proper_callRuleChanges hc hs hk hmem hw s.bottom x hx).grows { ht.grows with }
    have hpolled := Automaton.current_of_poll? h.current hpoll
    have hcalls := Automaton.consistent_of_poll? h.consistent hpoll
    obtain ⟨hconsistent, hcurrent⟩ := current_makeAll (s := { s with calls, last }) hcalls hpolled
      (d.listener.changes c s.bottom d.transition d.weight)
    have hsound : Sound { s with calls, last } := ht.sound.note
    -- What was there before the delivery still is, and what the rule makes of it is new.
    have hkeep : ∀ {x}, s.Holds x → Holds ({ s with calls, last }.makeAll
        (d.listener.changes c s.bottom d.transition d.weight)) x := fun {x} hx => by
      obtain ⟨events, rfl, -, -⟩ := poll?_eq_some hpoll
      have hx' : Holds { s with calls := { s.calls with events }, last } x :=
        hx.congr (fun _ => rfl) fun hk => hk
      exact hx'.makeAll _
    refine ⟨hconsistent, ?_, hcurrent.mono fun rule t w hdone x hx => ?_⟩
    · rw [seed_makeAll, bottom_makeAll]
      exact hkeep h.first
    · rw [bottom_makeAll] at hx
      rcases hdone with hdone | ⟨rfl, rfl, rfl⟩
      · exact hkeep (hdone x hx)
      · exact holds_makeAll hsound hproper x hx

end DemandAlias.Solver
