import DemandAlias.Proofs.Schedule.Answers
import DemandAlias.Proofs.Schedule.Sources
import DemandAlias.Proofs.Termination

/-!
# Asking again

A session leaves the call graph of one run to the next, so a query that is asked again begins
with the edges that its first run found. It finds no others: the first run bounds the second
one (`ConvergesTo.within_again`), which so comes to no unreachable method either, and converges
(`Unlimited.converges_again`). The two runs have the same, but for the numbers of their solvers,
and give the same answer (`Session.repeats`).

The numbers need not be the same. They are given in the order in which the queries are raised, and
with the edges there from the beginning this is another one (`Session.renumbers`).
-/

namespace DemandAlias

/-- A call graph that has grown by no edge is the same. -/
theorem CallGraph.Grows.eq_of_edges {g g' : CallGraph} (h : g.Grows g') (hg : g.Counted)
    (hg' : g'.Counted) (hedges : ∀ {x : Crossing} {e}, e ∈ x.edges g' → e ∈ x.edges g) :
    g' = g := by
  obtain ⟨es, hes, -⟩ := hg
  obtain ⟨es', hes', hnodup⟩ := hg'
  have hsub : es' ⊆ es := fun e he => by
    have hmem : e ∈ (Crossing.into e.site).edges g' := by
      rw [hes'.edges]
      simpa [Crossing.edgesIn] using he
    have hmem' := hedges hmem
    rw [hes.edges] at hmem'
    exact (mem_filter.1 hmem').1
  refine h.same (Nat.le_antisymm ?_ h.size)
  rw [hes.size, hes'.size]
  exact (List.subperm_of_subset hnodup hsub).length_le

namespace Session

open Run

variable {ω : Type} [Weight ω] [DecidableEq ω] [ZeroFree ω] {session : Session ω} {q : Query}
  {r r' : Run ω}

namespace ConvergesTo

variable (hc : session.setting.weighing.ZeroFree) (h : session.ConvergesTo q r)
include hc h

/-- A run is bounded by the one that left it its call graph. -/
theorem within_again :
    ((session.keep r).begin q).Within (r.mirrored session.setting r.graph) ∧
      (r.mirrored session.setting r.graph).Closed session.setting := by
  have hb := (h.complete hc).closed_mirrored hc (.refl r.graph)
  have hnames := h.names hc
  refine ⟨?_, hb⟩
  have hbegin := within_begin (session.keep r) (q := q) hb.toPassing rfl (fun he => he)
    ⟨⟨0⟩, hnames⟩
  -- If aliases are reported, the first run has the same subscriber from its beginning.
  refine hbegin fun hk N hN => ⟨⟨0⟩, hnames, .aliases, ?_, .aliases⟩
  have hsame : session.setting.outline = (session.keep r).setting.outline := rfl
  exact (h.grows hc).subscribers (aliases_mem_begin hsame hk)

/-- The second run does not come to an unreachable method, as the first one did not. -/
theorem not_failed_again (elapsed n : Nat) :
    ¬(((session.keep r).begin q).advance session.setting elapsed n).Failed := by
  obtain ⟨hw, hb⟩ := h.within_again hc
  refine hw.not_failed_advance hb (fun {N q n} hm => ?_) hc (orderly_begin (session.keep r) q).1
    (not_failed (standing_begin (session.keep r) q).phase) elapsed n
  -- The message would match one that the first run has dealt with, which ends a run.
  obtain ⟨id, s, -, -, m', hhandled, hmatch⟩ :=
    exists_solver_mirrored (P := fun b => b.message (.unreachable n)) hm fun h => h
  cases hmatch
  exact absurd hhandled (not_failed h.converged)

/-- The two runs have as much as each other. -/
theorem embeds_again (h' : (session.keep r).ConvergesTo q r') : r.Embeds r' ∧ r'.Embeds r := by
  have hc' : (session.keep r).setting.weighing.ZeroFree := hc
  have hgraph := (h.grows_graph hc).trans (h'.grows_graph hc')
  exact ⟨h.embeds hc hc' h' rfl hgraph, h'.embeds hc' hc h rfl (.refl r.graph)⟩

end ConvergesTo

/-! ### Sessions without a limit -/

/-- The session is about methods of the program, and its runs are not limited. -/
structure Unlimited (p : Program) (session : Session ω) : Prop where
  program : p.Spans session.setting.program
  zeroFree : session.setting.weighing.ZeroFree
  settles : ∀ {H : Node → Prop}, {n | H n}.Finite →
    ∃ P rank, session.setting.weighing.Settles H P rank
  maxSteps : session.setting.options.maxSteps = none
  timeout : session.setting.options.timeout = none
  builds : p.Builds session.graph

namespace Unlimited

variable {p : Program} (hu : session.Unlimited p) (hq : q.node.stmt ∈ p.statements)
  (h : session.ConvergesTo q r)

include hu hq

theorem ends : session.Ends q :=
  (ends_of_builds hu.program hu.zeroFree hu.settles hu.maxSteps hu.timeout hu.builds
    hq).1

include h

/-- The session is without a limit still when it has answered a query. -/
theorem keep : (session.keep r).Unlimited p := by
  refine { hu with builds := ?_ }
  obtain ⟨elapsed, n, rfl⟩ := h.advances
  exact builds_advance hu.program hu.zeroFree hu.settles hu.maxSteps hu.timeout
    hu.builds hq elapsed n

/-- The second run converges. -/
theorem converges_again (elapsed : Nat) : ∃ n, ∀ m, n ≤ m → (session.keep r).ConvergesTo q
    (((session.keep r).begin q).advance session.setting elapsed m) := by
  obtain ⟨n, hfinal⟩ := (hu.keep hq h).ends hq elapsed
  refine ⟨n, fun m hm => ⟨⟨elapsed, m, rfl⟩, ?_⟩⟩
  exact (hfinal m hm).resolve_right (h.not_failed_again hu.zeroFree elapsed m)

/-- The second run finds no edge. -/
theorem graph_again (h' : (session.keep r).ConvergesTo q r') : r'.graph = r.graph := by
  have hu' := hu.keep hq h
  have hgrows : r.graph.Grows r'.graph := h'.grows_graph hu'.zeroFree
  exact hgrows.eq_of_edges hu'.builds.counted (hu'.keep hq h').builds.counted
    (h.embeds_again hu.zeroFree h').2.edges

end Unlimited

theorem unlimited_start {p p' : Program} (scope : Scope) {options : Options}
    (hsteps : options.maxSteps = none) (htime : options.timeout = none) (hp : p'.Spans p) :
    (start ⟨p, scope, .reach, options⟩).Unlimited p' where
  program := hp
  zeroFree := zeroFree_reach
  settles _ := ⟨_, _, Weighing.settles_reach _⟩
  maxSteps := hsteps
  timeout := htime
  builds := builds_start hp

end Session

/-- In a session about a program that is described, without a limit on steps or time, a query whose
    run converges can be asked again: the second run converges as well, finds no edge that the
    first one has not found, has the same solver of the query, but for the numbers of solvers, and
    gives the same answer. -/
theorem Session.repeats {d : Description} {p : Program} (hp : d.resolve = .ok p) (scope : Scope)
    (options : Options) (hsteps : options.maxSteps = none) (htime : options.timeout = none)
    {q : Query} {r : Run Reach} (h : (start ⟨p, scope, .reach, options⟩).ConvergesTo q r)
    (elapsed : Nat) :
    ∃ n, ∀ m, n ≤ m → ∃ r',
      r' = ((keep (start ⟨p, scope, .reach, options⟩) r).begin q).advance
        ⟨p, scope, .reach, options⟩ elapsed m ∧
      r'.phase = .converged ∧ r'.graph = r.graph ∧ SameSolver r r' ∧
      SameAnswer (start ⟨p, scope, .reach, options⟩) r
        (keep (start ⟨p, scope, .reach, options⟩) r) r' q := by
  -- The statement asked about need not be one of the program.
  obtain ⟨p', hspans, hq⟩ := (isLaidOut_of_resolve hp).exists_spans q.node.stmt
  have hu := unlimited_start scope hsteps htime hspans
  have hu' := hu.keep hq h
  obtain ⟨n, hn⟩ := hu.converges_again hq h elapsed
  refine ⟨n, fun m hm => ⟨_, rfl, (hn m hm).converged, hu.graph_again hq h (hn m hm), ?_⟩⟩
  obtain ⟨hembeds, hembeds'⟩ := h.embeds_again hu.zeroFree (hn m hm)
  refine ⟨h.sameSolver hu.zeroFree hu'.zeroFree (hn m hm) hembeds hembeds', ?_⟩
  refine h.sameAnswer hu.zeroFree hu'.zeroFree (hn m hm) ?_ ?_
  · exact h.answersWithin_of_embeds rfl rfl rfl (hn m hm) hembeds
  · exact (hn m hm).answersWithin_of_embeds rfl rfl rfl h hembeds'

/-! ### An example -/

namespace Boxes

/-- In the second run, the third solver is another one. -/
theorem listing_second : (listing edges).phase = .converged ∧
    ((listing edges).solver? ⟨0⟩).any fun s => !s.calls.transitions.contains (written ⟨2⟩) := by
  decide +kernel

theorem exists_first :
    ∃ r, (Session.start setting).ConvergesTo (.backward query) r ∧ r.ListedBy (listing []) := by
  have hgraph : (Session.start setting).graph.ListedBy [] := CallGraph.listedBy_empty
  exact Session.exists_convergesTo hgraph listing_first.1

end Boxes

/-- For a box that is filled and emptied by methods which are found on the way, the query can be
    asked again. -/
theorem Session.repeats_boxes : Boxes.description.resolve = .ok Boxes.program ∧
    ∃ r, (start Boxes.setting).ConvergesTo (.backward Boxes.query) r ∧
      ∃ n, ∀ m, n ≤ m → ∃ r',
        r' = ((keep (start Boxes.setting) r).begin (.backward Boxes.query)).advance
          Boxes.setting 0 m ∧
        r'.phase = .converged ∧ r'.graph = r.graph ∧ SameSolver r r' ∧
        SameAnswer (start Boxes.setting) r (keep (start Boxes.setting) r) r'
          (.backward Boxes.query) := by
  refine ⟨Boxes.resolve_description, ?_⟩
  obtain ⟨r, h, -⟩ := Boxes.exists_first
  exact ⟨r, h, repeats Boxes.resolve_description .everything Boxes.options rfl rfl h 0⟩

/-- The solvers of the two runs need not have the same numbers: the value in the box is found in
    a calling context that comes from the third solver of the first run, and from another one
    in the second run. -/
theorem Session.renumbers : Boxes.description.resolve = .ok Boxes.program ∧
    ∃ r r' s s', (start Boxes.setting).ConvergesTo (.backward Boxes.query) r ∧
      (keep (start Boxes.setting) r).ConvergesTo (.backward Boxes.query) r' ∧
      r.solver? ⟨0⟩ = some s ∧ r'.solver? ⟨0⟩ = some s' ∧
      Boxes.written ⟨2⟩ ∈ s.calls.transitions ∧ Boxes.written ⟨2⟩ ∉ s'.calls.transitions := by
  refine ⟨Boxes.resolve_description, ?_⟩
  obtain ⟨-, hedges, hfirst⟩ := Boxes.listing_first
  obtain ⟨hphase, hsecond⟩ := Boxes.listing_second
  obtain ⟨r, h, hr⟩ := Boxes.exists_first
  have hgraph : (keep (start Boxes.setting) r).graph.ListedBy Boxes.edges := hedges ▸ hr.edges
  obtain ⟨r', h', hr'⟩ := exists_convergesTo hgraph hphase
  obtain ⟨s, hs, hmem⟩ := hr.has_call hfirst
  obtain ⟨s', hs', hmem'⟩ := hr'.lacks_call hsecond
  exact ⟨r, r', s, s', h, h', hs, hs', hmem, hmem'⟩

end DemandAlias
