import DemandAlias.Proofs.Context.Formation

/-!
# Access paths of runs

The automaton of fields of a solver says by which fields the tracked object is reached from the
locals that its nodes are about. A path starts at a node, each of its fields leads below the place
where it was pushed, and it ends in the bottom, which the empty label alone leads to
(`Solver.PathsFormed`). So a local holds the object itself just if its path is empty.

The nodes belong to methods together with their locals as calling contexts do, and the labels are
those of the vocabulary, so all runs have such paths (`Session.pathsFormed_of_runs`).
-/

namespace DemandAlias

open Solver

variable {state : State}

variable {ω : Type}

namespace Solver

/-- A state that access paths go on from: at a node, whose local belongs to the method of its
    statement, or below a field. -/
inductive PathState (p : Program) : State → Prop
  | located {n : Node} (hn : p.Owns n) : PathState p (.located n)
  | below (n : Node) (g : Field) : PathState p (below n g)

/-- How access paths go on: the empty label leads to the bottom, and a field below itself. -/
inductive PathStep (bottom : State) : Field → State → Prop
  | last : PathStep bottom .epsilon bottom
  | field {f : Field} (hf : f ≠ .epsilon) (m : Node) : PathStep bottom f (below m f)

/-- The access paths of the solver are well formed. They do not go on from the bottom nor back to
    a node, and a node holds the object itself if there is nothing between it and the bottom. -/
structure PathsFormed (p : Program) (s : Solver ω) : Prop where
  formed : ∀ t ∈ s.fields.transitions, PathState p t.source ∧ PathStep s.bottom t.label t.target
  bottom : ∀ t ∈ s.fields.transitions, t.source ≠ s.bottom
  located : ∀ t ∈ s.fields.transitions, ∀ n, t.target ≠ .located n
  direct : ∀ n, s.holdsDirectly n = true ↔ fieldAt n .epsilon s.bottom ∈ s.fields.transitions

variable {p : Program} {s : Solver ω}

theorem PathState.ne_bottom (h : PathState p state) (n : Node) :
    state ≠ .bottom n := by
  intro heq
  cases h with
  | located _ | below _ _ => cases heq

theorem PathStep.ne_located {f : Field} (h : PathStep s.bottom f state) (n : Node) :
    state ≠ .located n := by
  intro heq
  cases h with
  | last | field _ _ => cases heq

theorem PathStep.eq_bottom {bottom : State} (h : PathStep bottom .epsilon state) :
    state = bottom := by
  generalize hf : Field.epsilon = f at h
  cases h with
  | last => rfl
  | field hne => exact absurd hf.symm hne

theorem PathState.of_fieldSource {V : Vocabulary p} (h : V.FieldSource state)
    (howns : ∀ n, state = .located n → p.Owns n) : PathState p state := by
  cases h with
  | located => exact .located (howns _ rfl)
  | below h =>
    cases h
    exact .below _ _

theorem PathStep.of_leadsTo (hnamed : p.FieldsNamed) {V : Vocabulary p} {q : Query} {f : Field}
    (h : V.LeadsTo q f state) : PathStep (.bottom q.node) f state := by
  cases h with
  | bottom => exact .last
  | below hf => exact .field (hnamed.ne_epsilon hf.1) _

end Solver

/-! ### Runs -/

namespace Run

/-- The access paths of all solvers are well formed. -/
def PathsFormed (p : Program) (r : Run ω) : Prop := ∀ id s, r.solver? id = some s → s.PathsFormed p

variable [Weight ω] [DecidableEq ω] {c : Setting ω} {p : Program} {V : Vocabulary p}
  {graph : CallGraph} {r : Run ω} (ho : r.Orderly c) (hnamed : p.FieldsNamed)

include ho hnamed

/-- In a run that speaks of a program, fields lead where access paths go on. -/
theorem Within.pathStep (hspoken : r.Within (V.bound graph)) {id : SolverId} {s : Solver ω}
    (hs : r.solver? id = some s) {t : FieldTransition} (ht : t ∈ s.fields.transitions) :
    V.FieldSource t.source ∧ PathStep s.bottom t.label t.target := by
  obtain ⟨q, hq⟩ := hspoken.named hs
  obtain ⟨hseed, -⟩ := (ho.ids hq).of_solver? hs
  obtain ⟨hsource, hleads⟩ := (hspoken.solver hq hs).field ht
  rw [bottom, hseed]
  exact ⟨hsource, .of_leadsTo hnamed hleads⟩

/-- A run has well formed paths if its nodes belong to methods and its fields have names. -/
theorem pathsFormed_of_within (hframing : r.Within (.framing p r.extent graph))
    (hspoken : r.Within (V.bound graph)) : r.PathsFormed p := by
  intro id s hs
  obtain ⟨q, hq⟩ := hframing.named hs
  -- The vocabulary pairs labels with states, and the framing says whose the locals are.
  have hformed := fun t ht => (hspoken.pathStep ho hnamed hs (t := t) ht).imp_left
    (PathState.of_fieldSource · ((hframing.solver hq hs).field ht))
  -- What else is said of access paths follows from how they go on.
  refine ⟨hformed, fun t ht => (hformed t ht).1.ne_bottom s.seed,
    fun t ht => (hformed t ht).2.ne_located, fun n => ?_⟩
  rw [holdsDirectly_iff (ho.kept hs).sound.fields]
  refine ⟨fun ⟨state, hstate⟩ => ?_, fun hstate => ⟨_, hstate⟩⟩
  exact (hformed _ hstate).2.eq_bottom ▸ hstate

end Run

/-! ### Sessions -/

namespace Session

theorem Arises.pathsFormed [Weight ω] [DecidableEq ω] [ZeroFree ω] {c : Setting ω}
    {session : Session ω} {q : Query} {r : Run ω} (h : Arises c session)
    (hp : c.program.IsLaidOut) (howned : c.program.LocalsOwned) (hnamed : c.program.FieldsNamed)
    (hc : c.weighing.ZeroFree) (hq : c.program.Owns q.node) (hr : session.Runs q r) :
    r.PathsFormed c.program := by
  obtain rfl := h.setting_eq
  obtain ⟨ho, hframing⟩ := hr.within_framing hp howned hc (h.hasEdge hp hc) hq
  exact Run.pathsFormed_of_within ho hnamed hframing
    (hr.within_asking rfl hp hc (h.hasEdge hp hc) hq.1)

/-- The access paths of every run for a query at a statement and a local of one method are well
    formed, whatever was asked before, whether reachability is asked for or trails. -/
theorem pathsFormed_of_runs {d : Description} {p : Program} (hp : d.resolve = .ok p)
    (scope : Scope) (options : Options) {q : Query} (hq : p.Owns q.node) :
    (∀ (session : Session Reach) (r : Run Reach), Arises ⟨p, scope, .reach, options⟩ session →
      session.Runs q r → r.PathsFormed p) ∧
    ∀ (session : Session Trail) (r : Run Trail), Arises ⟨p, scope, .trail, options⟩ session →
      session.Runs q r → r.PathsFormed p := by
  have hlaid := isLaidOut_of_resolve hp
  have howned := Description.localsOwned_of_resolve hp
  have hnamed := Description.fieldsNamed_of_resolve hp
  refine ⟨fun session r h hr => ?_, fun session r h hr => ?_⟩
  · exact h.pathsFormed hlaid howned hnamed zeroFree_reach hq hr
  · exact h.pathsFormed hlaid howned hnamed zeroFree_trail hq hr

end Session

/-! ### An example -/

namespace Stowing

variable [Weight ω] [DecidableEq ω]

/-- Some access path goes on by the field that is read. -/
def goesOn (l : Solver.Listing ω) : Bool := l.fields.transitions.any fun t => t.label = field

/-- There is a run that looks for an object in the field. -/
theorem exists_goesOn {weighing : Weighing ω}
    (h : (((Run.Listing.beginBackward (setting weighing) query).advance
      (setting weighing) 0 5).solver? ⟨0⟩).any goesOn = true)
    (hformed : ∀ session r, Session.Arises (setting weighing) session →
      session.Runs (.backward query) r → r.PathsFormed program) :
    ∃ r s, (Session.start (setting weighing)).Runs (.backward query) r ∧
      r.PathsFormed program ∧ r.solver? ⟨0⟩ = some s ∧
      ∃ t ∈ s.fields.transitions, t.label = field := by
  obtain ⟨r, hr, hlisted⟩ := Session.exists_runs (setting weighing) (.backward query) 5
  obtain ⟨s, l, hs, hl, hgoes⟩ := hlisted.exists_solver h
  obtain ⟨t, ht, hlabel⟩ := any_eq_true.1 hgoes
  rw [← hl.fields.transitions] at ht
  exact ⟨_, s, hr, hformed _ _ .start hr, hs, t, ht, of_decide_eq_true hlabel⟩

end Stowing

/-- The solver of the query comes to look for an object in the field that was read. -/
theorem Session.pathsFormed_stowing : Stowing.description.resolve = .ok Stowing.program ∧
    Stowing.program.Owns Stowing.query.node ∧
    (∃ r s, (start (Stowing.setting .reach)).Runs (.backward Stowing.query) r ∧
      r.PathsFormed Stowing.program ∧ r.solver? ⟨0⟩ = some s ∧
      ∃ t ∈ s.fields.transitions, t.label = Stowing.field) ∧
    ∃ r s, (start (Stowing.setting .trail)).Runs (.backward Stowing.query) r ∧
      r.PathsFormed Stowing.program ∧ r.solver? ⟨0⟩ = some s ∧
      ∃ t ∈ s.fields.transitions, t.label = Stowing.field := by
  obtain ⟨hreach, htrail⟩ := pathsFormed_of_runs Stowing.resolve_description .everything {}
    (q := .backward Stowing.query) Stowing.owns_query
  exact ⟨Stowing.resolve_description, Stowing.owns_query,
    Stowing.exists_goesOn (by decide +kernel) hreach,
    Stowing.exists_goesOn (by decide +kernel) htrail⟩

end DemandAlias
