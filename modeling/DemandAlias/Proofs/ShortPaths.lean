import DemandAlias.Proofs.Schedule.Answers
import DemandAlias.Proofs.Unboundedness

/-!
# Short access paths

The access paths that a solver reports at a statement are the short ones that its automaton of
fields has: of at most eight fields, from a local that was reached to the bottom, by steps that
each lead to another state (`Solver.ReportsShortPaths`). They are read off by looking at all states
together that the same fields lead to, one field after the other (`Solver.mem_stacksFrom_iff`), so a
path is there whichever of the states it goes on from.
-/

namespace DemandAlias

open Solver
open Transition (Path)

variable {ω : Type}

/-- The transitions that lead to another state. -/
def Solver.fieldsOnward (s : Solver ω) : List FieldTransition :=
  s.fields.transitions.filter fun t => t.target ≠ t.source

/-- The access paths reported at each statement are in increasing order and are those of at most
    eight fields from a local that was reached to the bottom. -/
def Solver.ReportsShortPaths (s : Solver ω) : Prop :=
  ∀ stmt, Ascending (s.accessPathsAt stmt) ∧ ∀ v fields, ⟨v, fields⟩ ∈ s.accessPathsAt stmt ↔
    ⟨stmt, v⟩ ∈ s.reached ∧ fields.length ≤ 8 ∧ .epsilon ∉ fields ∧
      Path s.fieldsOnward (.located ⟨stmt, v⟩) (fields ++ [.epsilon]) s.bottom

namespace Solver

variable {s : Solver ω}

theorem mem_fieldsOnward_iff (t : FieldTransition) :
    t ∈ s.fieldsOnward ↔ t ∈ s.fields.transitions ∧ t.target ≠ t.source := by
  simp [fieldsOnward]

variable (hfields : s.fields.Consistent)
  (hsource : ∀ t ∈ s.fields.transitions, t.source ≠ s.bottom)
  (hstep : ∀ t ∈ s.fields.transitions, PathStep s.bottom t.label t.target)

include hfields hsource hstep

theorem endsAt_iff_exists_path (qs : List State) :
    s.endsAt qs = true ↔ ∃ q ∈ qs, Path s.fieldsOnward q [.epsilon] s.bottom := by
  rw [endsAt_iff hfields]
  refine exists_congr fun q => and_congr_right fun _ => ?_
  constructor
  · rintro ⟨q', -, ht⟩
    obtain rfl : q' = s.bottom := (hstep _ ht).eq_bottom
    exact .cons ((mem_fieldsOnward_iff _).2 ⟨ht, (hsource _ ht).symm⟩) (.nil _)
  · intro h
    cases h with
    | cons ht h =>
      cases h
      exact ⟨_, rfl, ((mem_fieldsOnward_iff _).1 ht).1⟩

/-- The stacks that are read off from some states are the short paths from any of them. -/
theorem mem_stacksFrom_iff (qs : List State) (limit : Nat) (fields : List Field) :
    fields ∈ s.stacksFrom qs limit ↔ fields.length ≤ limit ∧ .epsilon ∉ fields ∧
      ∃ q ∈ qs, Path s.fieldsOnward q (fields ++ [.epsilon]) s.bottom := by
  induction fields generalizing qs limit with
  | nil =>
    rw [nil_mem_stacksFrom_iff, endsAt_iff_exists_path hfields hsource hstep]
    simp
  | cons f _ ih =>
    cases limit with
    | zero =>
      simp only [stacksFrom]
      split <;> simp
    | succ =>
      rw [cons_mem_stacksFrom_iff, ih, length_cons, Nat.succ_le_succ_iff]
      constructor
      · rintro ⟨-, hlength, hnone, q', hq', hpath⟩
        obtain ⟨t, ht, rfl, rfl⟩ := (mem_fieldTargets_iff qs f q').1 hq'
        obtain ⟨ht, hq, hlabel, hne⟩ := (mem_fieldSteps_iff hfields qs t).1 ht
        refine ⟨hlength, by simp [hnone, Ne.symm hlabel], t.source, hq, ?_⟩
        exact .cons ((mem_fieldsOnward_iff t).2 ⟨ht, hne⟩) hpath
      · rintro ⟨hlength, hnone, q, hq, hpath⟩
        cases hpath with
        | @cons _ q' _ _ _ ht hpath =>
          obtain ⟨ht, hne⟩ := (mem_fieldsOnward_iff _).1 ht
          obtain ⟨hf, hnone⟩ := not_or.1 (mem_cons.not.1 hnone)
          have hmem := (mem_fieldSteps_iff hfields qs _).2 ⟨ht, hq, Ne.symm hf, hne⟩
          refine ⟨⟨_, hmem, rfl⟩, hlength, hnone, q', ?_, hpath⟩
          exact (mem_fieldTargets_iff qs f q').2 ⟨_, hmem, rfl, rfl⟩

/-- What is reported follows from how the fields lead on. -/
theorem reportsShortPaths_of_pathStep : s.ReportsShortPaths := by
  refine fun stmt => ⟨?_, fun v fields => ?_⟩
  · obtain ⟨hinOrder, hnodup⟩ := inOrder_sortedUnique
      ((s.reached.toList.filter fun n => n.stmt == stmt).flatMap fun n =>
        (s.stacksFrom [.located n] maxPathLength).map fun fields => AccessPath.mk n.var fields)
    exact hinOrder.ascending hnodup
  · rw [mem_accessPathsAt_iff, mem_stacksFrom_iff hfields hsource hstep]
    simp [maxPathLength]

end Solver

namespace Session

theorem Arises.reportsShortPaths [Weight ω] [DecidableEq ω] [ZeroFree ω] {c : Setting ω}
    {session : Session ω} {q : Query} {r : Run ω} (h : Arises c session)
    (hp : c.program.IsLaidOut) (hnamed : c.program.FieldsNamed) (hc : c.weighing.ZeroFree)
    (hq : q.node.stmt ∈ c.program.statements) (hr : session.Runs q r) (id : SolverId)
    (s : Solver ω) (hs : r.solver? id = some s) : s.ReportsShortPaths := by
  obtain rfl := h.setting_eq
  have ho := hr.orderly hc
  have hwithin := hr.within_asking rfl hp hc (h.hasEdge hp hc) hq
  have hstep := fun t => hwithin.pathStep ho hnamed hs (t := t)
  exact reportsShortPaths_of_pathStep (ho.kept hs).sound.fields
    (fun t ht => (hstep t ht).1.ne_bottom s.seed) fun t ht => (hstep t ht).2

/-- The solvers of every run for a query about the program report exactly their short access paths,
    whatever was asked before, whether reachability is asked for or trails. -/
theorem reportsShortPaths_of_runs {d : Description} {p : Program} (hp : d.resolve = .ok p)
    (scope : Scope) (options : Options) {q : Query} (hq : q.node.stmt ∈ p.statements) :
    (∀ (session : Session Reach) (r : Run Reach), Arises ⟨p, scope, .reach, options⟩ session →
      session.Runs q r → ∀ id s, r.solver? id = some s → s.ReportsShortPaths) ∧
    ∀ (session : Session Trail) (r : Run Trail), Arises ⟨p, scope, .trail, options⟩ session →
      session.Runs q r → ∀ id s, r.solver? id = some s → s.ReportsShortPaths := by
  have hlaid := isLaidOut_of_resolve hp
  have hnamed := Description.fieldsNamed_of_resolve hp
  refine ⟨fun session r h hr => ?_, fun session r h hr => ?_⟩
  · exact h.reportsShortPaths hlaid hnamed zeroFree_reach hq hr
  · exact h.reportsShortPaths hlaid hnamed zeroFree_trail hq hr

end Session

/-! ### An example -/

namespace Wrapping

variable [Weight ω] [DecidableEq ω]

/-- The object is in the field of the local, which leads to itself. -/
def isWrapped (l : Solver.Listing ω) : Bool :=
  l.seed = creation.node ∧ ⟨stmt 2, var "x"⟩ ∈ l.reached ∧
    [⟨.located ⟨stmt 2, var "x"⟩, field, wrapped⟩, ⟨wrapped, field, wrapped⟩,
      ⟨wrapped, .epsilon, .bottom creation.node⟩] ⊆ l.fields.transitions

/-- There is a run that reports the field of the local. -/
theorem exists_reported {weighing : Weighing ω} {n : Nat}
    (h : (((Run.Listing.beginForward (setting weighing) creation).advance
      (setting weighing) 0 n).solver? ⟨0⟩).any isWrapped = true)
    (hshort : ∀ session r, Session.Arises (setting weighing) session →
      session.Runs (.forward creation) r → ∀ id s, r.solver? id = some s → s.ReportsShortPaths) :
    ∃ r s, (Session.start (setting weighing)).Runs (.forward creation) r ∧
      r.solver? ⟨0⟩ = some s ∧ s.ReportsShortPaths ∧
      ⟨wrapped, field, wrapped⟩ ∈ s.fields.transitions ∧
      ⟨var "x", [field]⟩ ∈ s.accessPathsAt (stmt 2) := by
  obtain ⟨r, hr, hlisted⟩ := Session.exists_runs (setting weighing) (.forward creation) n
  obtain ⟨s, l, hs, hl, hwrapped⟩ := hlisted.exists_solver h
  obtain ⟨hseed, hreached, hfields⟩ := of_decide_eq_true hwrapped
  rw [← hl.fields.transitions, ← hseed, ← hl.seed] at hfields
  simp only [List.cons_subset] at hfields
  have hreports := hshort _ _ .start hr _ s hs
  refine ⟨_, s, hr, hs, hreports, hfields.2.1, ((hreports (stmt 2)).2 _ _).2 ⟨?_, ?_⟩⟩
  · show _ ∈ s.reached.toList
    rw [hl.reached]
    exact hreached
  · have hin := (mem_fieldsOnward_iff _).2 ⟨hfields.1, fun heq => by cases heq⟩
    have hout := (mem_fieldsOnward_iff _).2 ⟨hfields.2.2.1, Ne.symm <|
      (PathState.below (p := program) _ _).ne_bottom s.seed⟩
    exact ⟨by decide, by decide, .cons hin (.cons hout (.nil _))⟩

end Wrapping

open Wrapping

/-- The object is found in the field of the local, though there are ever more fields around it. -/
theorem Session.reportsShortPaths_wrapping :
    description.resolve = .ok program ∧
    (∃ r s, (start (Wrapping.setting .reach)).Runs (.forward creation) r ∧
      r.solver? ⟨0⟩ = some s ∧ s.ReportsShortPaths ∧
      ⟨wrapped, field, wrapped⟩ ∈ s.fields.transitions ∧
      ⟨var "x", [field]⟩ ∈ s.accessPathsAt (stmt 2)) ∧
    ∃ r s, (start (Wrapping.setting .trail)).Runs (.forward creation) r ∧
      r.solver? ⟨0⟩ = some s ∧ s.ReportsShortPaths ∧
      ⟨wrapped, field, wrapped⟩ ∈ s.fields.transitions ∧
      ⟨var "x", [field]⟩ ∈ s.accessPathsAt (stmt 2) := by
  obtain ⟨hreach, htrail⟩ := reportsShortPaths_of_runs resolve_description .everything {}
    (q := .forward creation) (by decide +kernel)
  exact ⟨resolve_description,
    exists_reported (n := 60) (by decide +kernel) hreach,
    exists_reported (n := 60) (by decide +kernel) htrail⟩

end DemandAlias
