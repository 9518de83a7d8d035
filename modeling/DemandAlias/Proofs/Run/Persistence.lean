import DemandAlias.Proofs.Automaton.Latest
import DemandAlias.Proofs.Run.Lone
import DemandAlias.Proofs.Run.Updating

/-!
# What a solver keeps to

What the automaton of calls is like is mostly a matter of the transitions and rules added to
it, and there are few ways in which a change adds any (`calls_make_cases`). A property that is
kept by these and by delivering events is kept by all that a solver does (`Persists`).
-/

namespace DemandAlias

variable {ω : Type} {x : Change ω}

/-- The change registers the rule with the automaton of calls, unless that was done. -/
inductive Change.Registers : Change ω → Topic State Statement → CallRule ω → Prop
  | rule (topic : Topic State Statement) (rule : CallRule ω) :
    Registers (.callRule topic rule) topic rule
  | request (state : State) (topic : Topic State Statement) (r : CallRequest) :
    Registers (.callRequest state topic r) topic (.request r)
  | unwind (state : State) (label : Statement) (target : Node) (frames : List Statement) :
    Registers (.unwind state label target frames) (.outBy state label) (.unwind target frames)

namespace Solver

variable [Weight ω] [DecidableEq ω] {s s' : Solver ω}

omit [Weight ω] [DecidableEq ω] in
theorem calls_reach (s : Solver ω) (n : Node) : (s.reach n).calls = s.calls := by
  obtain ⟨reached, pending, heq, -⟩ := reach_eq s n
  rw [heq]

/-- What a change does to the automaton of calls. -/
theorem calls_make_cases (s : Solver ω) (x : Change ω) :
    (s.make x).calls = s.calls ∨ (∃ q, (s.make x).calls = s.calls.addInitial q) ∨
      (∃ t w, x = .call t w ∧ (s.make x).calls = s.calls.add t w) ∨
      ∃ topic rule, x.Registers topic rule ∧ (s.make x).calls = s.calls.listen topic rule := by
  cases x with
  | call t w => exact .inr (.inr (.inl ⟨t, w, rfl, rfl⟩))
  | field _ | fieldRule _ _ | message _ => exact .inl rfl
  | callRule topic rule => exact .inr (.inr (.inr ⟨topic, rule, .rule .., rfl⟩))
  | reachByCalls n =>
    simp only [make, reachByCalls]
    split
    · exact .inl rfl
    · exact .inr (.inl ⟨.single n.var, calls_reach ..⟩)
  | reachByFields =>
    simp only [make, reachByFields]
    split
    · exact .inl rfl
    · exact .inl (calls_reach ..)
  | callRequest _ topic r =>
    simp only [make, requestCalls]
    split
    · exact .inl rfl
    · exact .inr (.inr (.inr ⟨topic, .request r, .request .., rfl⟩))
  | fieldRequest =>
    simp only [make, requestFields]
    split <;> exact .inl rfl
  | unwind state label target frames =>
    simp only [make, Solver.unwind]
    split
    · exact .inl rfl
    · exact .inr (.inr (.inr ⟨.outBy state label, .unwind target frames, .unwind .., rfl⟩))

/-- A rule that listens after a change did so before, or the change registers it. -/
theorem listens_make_cases {topic : Topic State Statement} {rule : CallRule ω}
    (h : (s.make x).calls.Listens topic rule) :
    s.calls.Listens topic rule ∨ x.Registers topic rule := by
  rcases calls_make_cases s x with heq | ⟨q, heq⟩ | ⟨t, w, -, heq⟩ | ⟨topic', rule', hx, heq⟩
  · exact .inl (heq ▸ h)
  · rw [heq] at h
    exact .inl h
  · rw [heq, Automaton.listens_add] at h
    exact .inl h
  · rw [heq, Automaton.listens_listen] at h
    rcases h with h | ⟨rfl, rfl⟩
    · exact .inl h
    · exact .inr hx

/-- What a transition weighs after a change it weighed before, or the change adds it. -/
theorem weight?_make_cases {t : CallTransition} {v : ω} (h : (s.make x).calls.weight? t = some v) :
    s.calls.weight? t = some v ∨ ∃ w, x = .call t w ∧ w ≠ zero ∧
      (v = w ∨ ∃ old, s.calls.weight? t = some old ∧ v = combine old w) := by
  rcases calls_make_cases s x with heq | ⟨q, heq⟩ | ⟨t', w, rfl, heq⟩ | ⟨topic, rule, -, heq⟩
  · exact .inl (heq ▸ h)
  · rw [heq] at h
    exact .inl h
  · rw [heq] at h
    by_cases hw : w = zero
    · rw [hw, Automaton.add_zero] at h
      exact .inl h
    · by_cases ht : t = t'
      · subst ht
        rw [Automaton.weight?_add_self _ _ hw] at h
        cases hold : s.calls.weight? t with
        | none =>
          rw [hold] at h
          exact .inr ⟨w, rfl, hw, .inl (some.inj h).symm⟩
        | some old =>
          rw [hold] at h
          exact .inr ⟨w, rfl, hw, .inr ⟨old, rfl, (some.inj h).symm⟩⟩
      · rw [Automaton.weight?_add_of_ne _ _ ht] at h
        exact .inl h
  · rw [heq, Automaton.weight?_listen] at h
    exact .inl h

theorem seed_make (s : Solver ω) (x : Change ω) : (s.make x).seed = s.seed := (frame_make s x).2.1

theorem bottom_make (s : Solver ω) (x : Change ω) : (s.make x).bottom = s.bottom := by
  rw [bottom, bottom, seed_make]

theorem seed_makeAll (s : Solver ω) (xs : List (Change ω)) : (s.makeAll xs).seed = s.seed := by
  induction xs generalizing s with
  | nil => rfl
  | cons _ _ ih => rw [makeAll_cons, ih, seed_make]

theorem bottom_makeAll (s : Solver ω) (xs : List (Change ω)) : (s.makeAll xs).bottom = s.bottom := by
  rw [bottom, bottom, seed_makeAll]

theorem holds_makeAll_of {A : Change ω → Prop} {P : Solver ω → Prop}
    (hP : ∀ {s x}, P s → A x → P (s.make x)) {xs : List (Change ω)} (hxs : ∀ x ∈ xs, A x)
    (h : P s) : P (s.makeAll xs) := by
  induction xs generalizing s with
  | nil => exact h
  | cons x _ ih =>
    exact ih (fun y hy => hxs y (mem_cons_of_mem _ hy)) (hP h (hxs x mem_cons_self))

/-! ### Properties that persist -/

/-- The property `P` is kept by what a solver does, as long as `I` holds of it. -/
structure Persists (c : Setting ω) (I P : Solver ω → Prop) : Prop where
  note : ∀ {s}, P s → ∀ watches visited pending last edgesSeen outbox,
    P { s with watches, visited, pending, last, edgesSeen, outbox }
  make : ∀ {s x}, P s → x.Unweighted → P (s.make x)
  calls : ∀ {s d calls}, I s → P s → s.calls.poll? = some (d, calls) → ∀ last,
    P ({ s with calls, last }.makeAll (d.listener.changes c s.bottom d.transition d.weight))
  fields : ∀ {s d fields}, P s → s.fields.poll? = some (d, fields) → P { s with fields }

namespace Persists

variable {c : Setting ω} {I P : Solver ω → Prop}

variable (hP : Persists c I P)
include hP

theorem and {J Q : Solver ω → Prop} (hQ : Persists c J Q) (hJ : ∀ s, I s → J s) :
    Persists c I fun s => P s ∧ Q s where
  note h _ _ _ _ _ _ := ⟨hP.note h.1 _ _ _ _ _ _, hQ.note h.2 _ _ _ _ _ _⟩
  make h hx := ⟨hP.make h.1 hx, hQ.make h.2 hx⟩
  calls hI h hpoll last := ⟨hP.calls hI h.1 hpoll last, hQ.calls (hJ _ hI) h.2 hpoll last⟩
  fields h hpoll := ⟨hP.fields h.1 hpoll, hQ.fields h.2 hpoll⟩

/-- What others let a solver do keeps to it, if copying transitions does. -/
theorem make_neutral (hcopy : ∀ {s t}, P s → P (s.make (.call t one))) (h : P s)
    (hx : x.Neutral) : P (s.make x) := by
  cases x with
  | call t w =>
    obtain rfl : w = one := hx
    exact hcopy h
  | callRule => exact hP.make h hx
  | _ => exact hP.make h trivial

theorem makes (h : P s) (hs : Makes Change.Unweighted s s') : P s' := by
  induction hs with
  | refl => exact h
  | make _ hx ih => exact hP.make ih hx
  | note _ watches visited ih => exact hP.note ih watches visited _ _ _ _

theorem serveQueue (hI : I s) (h : P s) (g : CallGraph) (queue : WorkQueue) :
    P (s.serveQueue c g queue) := by
  have hlast : P { s with last := queue } := hP.note h _ _ _ _ _ _
  rcases serveQueue_cases c g s queue with
    heq | ⟨d, calls, hpoll, heq⟩ | ⟨d, fields, hpoll, heq⟩ | ⟨n, pending, -, heq⟩
  · rwa [heq]
  · rw [heq]
    exact hP.calls hI h hpoll queue
  · rw [heq]
    exact hP.makes (hP.fields hlast hpoll)
      (makes_makeAll _ fun x hx => (FieldRule.mild_changes d.listener d.transition x hx).2)
  · rw [heq]
    exact hP.makes (hP.note h _ _ _ _ _ _) (makes_process ..)

theorem refresh (h : P s) (g : CallGraph) : P (s.refresh c g) := by
  rcases makes_refresh c g s with ⟨-, heq⟩ | ⟨-, hmakes⟩
  · rwa [heq]
  · exact hP.makes (hP.note h _ _ _ _ _ _) hmakes

end Persists

end Solver

/-! ### Runs -/

namespace Run

variable [Weight ω] [DecidableEq ω] {c : Setting ω} {P : Solver ω → Prop} {r r' : Run ω}

/-- The property holds of all solvers of the run. -/
def Everywhere (P : Solver ω → Prop) (r : Run ω) : Prop := ∀ ⦃id s⦄, r.solver? id = some s → P s

theorem everywhere_beginForward (session : Session ω) {q : ForwardQuery}
    (h : P (.start ⟨0⟩ .forward q.node)) : (session.beginForward q).Everywhere P := by
  intro id s hs
  rw [solver?_beginForward] at hs
  split at hs
  · cases hs
    exact h
  · cases hs

omit [Weight ω] [DecidableEq ω] in
theorem Everywhere.modifySolver (h : r.Everywhere P) {id : SolverId} {f : Solver ω → Solver ω}
    (hf : ∀ {s}, r.solver? id = some s → P (f s)) : (r.modifySolver id f).Everywhere P := by
  intro id' s' hs'
  rcases solver?_modifySolver_cases hs' with ⟨s, rfl, hs, rfl⟩ | ⟨-, hs'⟩
  · exact hf hs
  · exact h hs'

theorem Everywhere.updates (hmake : ∀ {s : Solver ω} {x}, P s → x.Neutral → P (s.make x))
    (hstart : ∀ id direction seed, P (.start id direction seed)) (h : r.Everywhere P)
    (hu : Updates Change.Neutral r r') : r'.Everywhere P := by
  induction hu with
  | refl => exact h
  | change _ _ hx ih => exact ih.modifySolver fun hs => hmake (ih hs) hx
  | create _ _ ih =>
    intro id s hs
    rw [solver?_create] at hs
    split at hs
    · cases hs
      exact hstart ..
    · exact ih hs
  | @register r' _ x _ _ _ _ hxs ih =>
    have hnote : Everywhere P { r' with registered := r'.registered.insert x } := ih
    exact hnote.modifySolver fun hs =>
      Solver.holds_makeAll_of hmake (fun x hx => (hxs x hx).neutral) (hnote hs)
  | addEdge _ _ ih => exact ih
  | note _ _ _ _ _ _ ih => exact ih

variable [ZeroFree ω]

/-- What a solver keeps to when it takes its steps and when others let it do something holds
    of all solvers of a run. -/
theorem maintained_everywhere_of (hc : c.weighing.ZeroFree)
    (hmake : ∀ {s : Solver ω} {x}, P s → x.Neutral → P (s.make x))
    (hstart : ∀ id direction seed, P (.start id direction seed))
    (hrefresh : ∀ {s} g, P s → P (s.refresh c g))
    (hserve : ∀ {s} g queue, s.Sound → P s → P { s.serveQueue c g queue with outbox := [] }) :
    Maintained c fun r => r.Everywhere P where
  clock h _ _ := h
  refresh {r} _ h _ := h.modifySolver fun hs => hrefresh r.graph (h hs)
  serve {r} ho h {id s} hs queue := by
    have htake : (r.takeOut c id queue).Everywhere P := by
      have hmodified : (r.modifySolver id fun s =>
          { s.serveQueue c r.graph queue with outbox := [] }).Everywhere P :=
        h.modifySolver fun hs => hserve r.graph queue (ho.kept hs).sound (h hs)
      exact hmodified
    exact htake.updates hmake hstart
      ((updates_serveSolver hc ho.toKept hs (k := 0) fun _ _ => Nat.zero_le _).mono
        fun _ hx => hx.2)

/-- What a solver keeps to on its own, and what copying transitions from others keeps, holds
    of all solvers of a run. -/
theorem maintained_everywhere (hc : c.weighing.ZeroFree)
    (hP : Solver.Persists c Solver.Sound P)
    (hstart : ∀ id direction seed, P (.start id direction seed))
    (hcopy : ∀ {s t}, P s → P (s.make (.call t one))) :
    Maintained c fun r => r.Everywhere P :=
  maintained_everywhere_of hc (hP.make_neutral hcopy) hstart (fun g h => hP.refresh h g)
    fun g queue hs h => hP.note (hP.serveQueue hs h g queue) _ _ _ _ _ _

/-- What a solver keeps to on its own, as long as it is within a bound, holds of a run in
    which nothing is passed on. -/
theorem maintained_lone_everywhere {b : Bound ω} {g : CallGraph} {direction : Direction}
    {seed : Node} (hb : Private b c g direction seed) (hc : c.weighing.ZeroFree)
    (hP : Solver.Persists c
      (fun s => s.Sound ∧ s.direction = direction ∧ s.seed = seed ∧ s.Within b) P) :
    Maintained c fun r => r.Lone b g direction seed ∧ r.Everywhere P where
  clock h turn phase := ⟨(maintained_lone hb hc).clock h.1 turn phase, h.2⟩
  refresh {r} ho h id := ⟨(maintained_lone hb hc).refresh ho h.1 id,
    h.2.modifySolver fun hs => hP.refresh (h.2 hs) r.graph⟩
  serve {r} ho h {id s} hs queue := by
    refine ⟨(maintained_lone hb hc).serve ho h.1 hs queue, ?_⟩
    obtain ⟨phase, heq⟩ := h.1.exists_serveSolver_eq hb hc ho hs queue
    have htake : (r.modifySolver id fun s =>
        { s.serveQueue c r.graph queue with outbox := [] }).Everywhere P :=
      h.2.modifySolver fun hs => hP.note (hP.serveQueue
        ⟨(ho.kept hs).sound, h.1.solver hs⟩ (h.2 hs) r.graph queue) _ _ _ _ _ _
    rw [heq]
    exact htake

end Run

end DemandAlias
