import DemandAlias.Proofs.Delivery
import DemandAlias.Proofs.Search.Relation

/-!
# A converged run has found everything

In a converged run without excluded methods, the solver of a search has come to every
access the search comes to (`Run.Complete.holds_of_steps`): its automaton of fields spells
the fields still to be read, in the outermost calling context.
-/

namespace DemandAlias.Search

open Solver

variable {ω : Type}
variable {s : Solver ω} {fields : List Field}

/-! ### What a solver has come to -/

/-- The fields are spelled by transitions from the state to the bottom. -/
inductive Spells (s : Solver ω) : State → List Field → Prop
  | nil {q : State} (ht : ⟨q, .epsilon, s.bottom⟩ ∈ s.fields.transitions) : Spells s q []
  | cons {q q' : State} {f : Field} {fields : List Field}
      (ht : ⟨q, f, q'⟩ ∈ s.fields.transitions) (h : Spells s q' fields) :
    Spells s q (f :: fields)

/-- Fields are spelled from every state that has the transitions of `q`. -/
theorem Spells.mono {q q' : State} (h : Spells s q fields)
    (hq : ∀ f p, ⟨q, f, p⟩ ∈ s.fields.transitions → ⟨q', f, p⟩ ∈ s.fields.transitions) :
    Spells s q' fields := by
  cases h with
  | nil ht => exact .nil (hq _ _ ht)
  | cons ht h => exact .cons (hq _ _ ht) h

theorem Spells.exists_transition {q : State} (h : Spells s q fields) :
    ∃ f p, ⟨q, f, p⟩ ∈ s.fields.transitions := by
  cases h with
  | nil ht => exact ⟨_, _, ht⟩
  | cons ht => exact ⟨_, _, ht⟩

/-- The solver has come to the access. -/
structure Holds (s : Solver ω) (a : Access) : Prop where
  call : callAt a.node s.bottom ∈ s.calls.transitions
  spells : Spells s (.located a.node) a.fields

theorem Holds.reached [Weight ω] {c : Setting ω} {g : CallGraph} {sent : Message → Prop}
    {a : Access} (h : Holds s a) (hfinished : Run.Finished c g sent s) : a.node ∈ s.reached :=
  (hfinished.reached_iff _).2 ⟨⟨_, h.call⟩, h.spells.exists_transition⟩

/-- A move that is followed leads on from everything the solver has come to. -/
theorem Holds.move {n : Node} {m : Move} {fields' : List Field} (h : Holds s ⟨n, fields⟩)
    (hm : s.FollowsMove n m) (hacts : Acts m fields fields') : Holds s ⟨m.target, fields'⟩ := by
  obtain ⟨hcall, hspells⟩ := h
  cases hacts with
  | step => exact ⟨hm.1 _ hcall, hspells.mono hm.2⟩
  | push =>
    obtain ⟨f, p, ht⟩ := hspells.exists_transition
    exact ⟨hm.1 _ hcall, .cons (hm.2 f p ht).1 (hspells.mono fun f p ht => (hm.2 f p ht).2)⟩
  | pop hsees =>
    cases hspells with
    | cons ht hrest => exact ⟨hm.1 _ hcall, hrest.mono (hm.2 _ _ ht hsees)⟩

end DemandAlias.Search

namespace DemandAlias.Run

open Solver Search

variable {ω : Type} [Weight ω] [DecidableEq ω] {c : Setting ω} {r : Run ω}
variable {id : SolverId} {s : Solver ω}

/-- A solver has come to its seed. -/
theorem Core.holds_seed {waiting : SolverId → Message → Prop} [ZeroFree ω] (h : r.Core c waiting)
    (hs : r.solver? id = some s) {seed : Node} (hseed : s.seed = seed) : Holds s ⟨seed, []⟩ := by
  subst hseed
  have hgrows := h.started hs
  refine ⟨hgrows.calls ?_, .nil (hgrows.fields ?_)⟩
  · exact (mem_transitions_seeded ..).2 ⟨rfl, ZeroFree.one_ne_zero⟩
  · exact (mem_transitions_seeded ..).2 ⟨rfl, nofun⟩

theorem Complete.processed_of_holds (h : r.Complete c) (hs : r.solver? id = some s) {a : Access}
    (ha : Holds s a) : s.Processed a.node := by
  refine ⟨ha.reached (h.finished hs), ?_⟩
  rw [(h.finished hs).idle]
  exact not_mem_nil

variable [ZeroFree ω]

/-- In a run without excluded methods whose solvers have nothing left to do, a solver that
    has come to the start of a search has come to all of it. -/
theorem Complete.holds_of_steps (h : r.Complete c) (hscope : c.scope = .everything)
    {direction : Direction} {seed : Node} {a b : Access}
    (hsteps : Steps c.program direction seed a b) :
    ∀ {id s}, r.solver? id = some s → s.direction = direction → s.seed = seed → Holds s a →
      Holds s b := by
  have hincluded : ∀ name, c.scope.excludes name = false := fun name => by rw [hscope]; rfl
  induction hsteps with
  | refl => exact fun _ _ _ ha => ha
  | move _ _ hacts ih =>
    intro id s hs hdirection hseed ha
    have hn := ih hs hdirection hseed ha
    refine hn.move ?_ hacts
    have hfinished := h.finished hs
    refine hfinished.followsMove_of_successor (hn.reached hfinished) (hincluded _) (.within ?_)
    rwa [flowAt_eq, hdirection, hseed]
  | @shared _ _ store _ base y field _ t _ hstore howner _ _ hne ht ih ihbase ihother =>
    intro id s hs hdirection hseed ha
    have hn := ih hs hdirection hseed ha
    obtain ⟨finder, hfinder, hfound⟩ := h.aliasesDelivered id s hs hdirection store base field
      (h.processed_of_holds hs hn) (hincluded _) hstore
    -- The solver of what is written to has found the creation, and the one of the creation
    -- has found the local.
    obtain ⟨s₁, hs₁, hseed₁, hdirection₁⟩ := h.ids hfinder
    have howned := ihbase hs₁ hdirection₁ hseed₁ (h.holds_seed hs₁ hseed₁)
    cases howned.spells with
    | nil hq =>
      have hallocation := (h.allocation_handled hs₁ hdirection₁ (howned.reached (h.finished hs₁))
        (hincluded _) howner hq howner).1 rfl
      obtain ⟨follower, hfollower, s₂, hs₂, haliases⟩ := hfound _ hallocation
      obtain ⟨hseed₂, hdirection₂⟩ := (h.ids hfollower).of_solver? hs₂
      have hheld := ihother hs₂ hdirection₂ hseed₂ (h.holds_seed hs₂ hseed₂)
      cases hheld.spells with
      | nil hp =>
        obtain ⟨hcalls, hpushed, hbelow⟩ := haliases y _ hne hp t ht
        exact ⟨hcalls _ hn.call, .cons hpushed (hn.spells.mono hbelow)⟩
  | @stored _ _ store owner value field written _ _ howner _ hstore hsees ih ihbase =>
    intro id s hs hdirection hseed ha
    have hn := ih hs hdirection hseed ha
    cases hn.spells with
    | @cons _ p _ _ hp hrest =>
      have hfield : field ≠ .epsilon := by
        rintro rfl
        cases hsees
      obtain ⟨follower, hfollower, s₁, hs₁, hstores⟩ := h.storesDelivered id s hs hdirection owner
        field p (h.processed_of_holds hs hn) (hincluded _) howner hp hfield
      obtain ⟨hseed₁, hdirection₁⟩ := (h.ids hfollower).of_solver? hs₁
      have hheld := ihbase hs₁ hdirection₁ hseed₁ (h.holds_seed hs₁ hseed₁)
      cases hheld.spells with
      | nil hq =>
        obtain ⟨hpopped, hcontexts⟩ := hstores store written value _ hstore hsees hq
        have hcall := (hcontexts _ hheld.call).1
        rw [importOf, if_pos rfl] at hcall
        exact ⟨hcall, hrest.mono hpopped⟩

/-- What a search comes to with nothing left to be read, at a creation, is found. -/
theorem Complete.mem_allocations_of_finds (h : r.Complete c) (hscope : c.scope = .everything)
    (hs : r.solver? id = some s) (hbackward : s.direction = .backward) {q : ForwardQuery}
    (hfinds : Finds c.program .backward s.seed ⟨q.node, []⟩) : q ∈ r.allocations.get id := by
  have hheld := h.holds_of_steps hscope hfinds hs hbackward rfl (h.holds_seed hs rfl)
  cases hheld.spells with
  | nil hp =>
    exact (h.allocation_handled hs hbackward (hheld.reached (h.finished hs)) (by rw [hscope]; rfl)
      q.allocates hp q.allocates).1 rfl

end DemandAlias.Run
