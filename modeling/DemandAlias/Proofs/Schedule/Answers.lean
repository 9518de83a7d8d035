import DemandAlias.Proofs.Aliases
import DemandAlias.Proofs.Run.Evaluation
import DemandAlias.Proofs.Run.Standing
import DemandAlias.Proofs.Schedule.Reweighing

/-!
# Answers of runs that have as much

What is answered grows with what the solvers of a run have. A stack of fields that is read
off one automaton is read off any automaton with the same transitions and more
(`Solver.stacksFrom_subset`), so an access path reported by a solver is reported by any solver
that has as much (`Embeds.accessPathsAt`). If the run of a query converges and another one has as
much, then all that the one answers the other one does (`ConvergesTo.answersWithin`). As answers
are in order and without repetition, two runs that have as much as each other give the same
answer (`ConvergesTo.sameAnswer`).
-/

namespace DemandAlias

variable {ω ω' : Type}

/-! ### Access paths -/

namespace Solver

section Paths

variable {s : Solver ω} {s' : Solver ω'}

theorem mem_fieldSteps_iff (h : s.fields.Consistent) (qs : List State) (t : FieldTransition) :
    t ∈ s.fieldSteps qs ↔ t ∈ s.fields.transitions ∧ t.source ∈ qs ∧ t.label ≠ .epsilon ∧
      t.target ≠ t.source := by
  simp only [fieldSteps, mem_flatMap, mem_filter, h.mem_transitionsOf_iff,
    Transition.topics, mem_cons, reduceCtorEq, Topic.out.injEq, not_mem_nil, or_false,
    decide_eq_true_eq]
  constructor
  · rintro ⟨q, hq, ⟨ht, rfl⟩, hlabel, htarget⟩
    exact ⟨ht, hq, hlabel, htarget⟩
  · rintro ⟨ht, hq, hlabel, htarget⟩
    exact ⟨t.source, hq, ⟨ht, rfl⟩, hlabel, htarget⟩

theorem endsAt_iff (h : s.fields.Consistent) (qs : List State) :
    s.endsAt qs = true ↔ ∃ q ∈ qs, ∃ p, p.isBottom = true ∧
      ⟨q, .epsilon, p⟩ ∈ s.fields.transitions := by
  simp only [endsAt, any_eq_true, h.mem_transitionsOf_iff, and_eq_true, beq_iff_eq,
    Transition.topics, mem_cons, reduceCtorEq, Topic.out.injEq, not_mem_nil, or_false]
  refine exists_congr fun q => and_congr_right fun _ => ?_
  constructor
  · rintro ⟨⟨source, label, target⟩, ⟨ht, rfl⟩, rfl, hbottom⟩
    exact ⟨target, hbottom, ht⟩
  · rintro ⟨p, hbottom, ht⟩
    exact ⟨_, ⟨ht, rfl⟩, rfl, hbottom⟩

/-- Where a step that pushes or pops `f` leads to. -/
def fieldTargets (s : Solver ω) (qs : List State) (f : Field) : List State :=
  (((s.fieldSteps qs).filter fun t => t.label == f).map Transition.target).eraseDups

theorem mem_fieldTargets_iff (qs : List State) (f : Field) (p : State) :
    p ∈ s.fieldTargets qs f ↔ ∃ t ∈ s.fieldSteps qs, t.label = f ∧ t.target = p := by
  simp [fieldTargets, and_assoc]

theorem cons_mem_stacksFrom_iff (qs : List State) (limit : Nat) (f : Field) (fs : List Field) :
    f :: fs ∈ s.stacksFrom qs (limit + 1) ↔
      (∃ t ∈ s.fieldSteps qs, t.label = f) ∧ fs ∈ s.stacksFrom (s.fieldTargets qs f) limit := by
  have hlonger : f :: fs ∈ s.stacksFrom qs (limit + 1) ↔ f :: fs ∈
      ((s.fieldSteps qs).map Transition.label).eraseDups.flatMap fun f' =>
        (s.stacksFrom (s.fieldTargets qs f') limit).map (f' :: ·) := by
    simp only [stacksFrom]
    split
    · rw [mem_cons, or_iff_right (cons_ne_nil f fs)]
      rfl
    · rfl
  rw [hlonger]
  simp only [mem_flatMap, mem_eraseDups, mem_map, List.cons.injEq]
  constructor
  · rintro ⟨_, hstep, _, hfs, rfl, rfl⟩
    exact ⟨hstep, hfs⟩
  · rintro ⟨hstep, hfs⟩
    exact ⟨f, hstep, fs, hfs, rfl, rfl⟩

/-- Stacks of fields are read off any automaton that has the transitions. -/
theorem stacksFrom_subset (h : s.fields.Consistent) (h' : s'.fields.Consistent)
    (hfields : ∀ t ∈ s.fields.transitions, t ∈ s'.fields.transitions) {limit : Nat}
    {qs qs' : List State} (hqs : qs ⊆ qs') : s.stacksFrom qs limit ⊆ s'.stacksFrom qs' limit := by
  have hends : ∀ {qs qs' : List State}, qs ⊆ qs' → s.endsAt qs = true → s'.endsAt qs' = true := by
    intro qs qs' hqs
    rw [endsAt_iff h, endsAt_iff h']
    rintro ⟨q, hq, p, hbottom, ht⟩
    exact ⟨q, hqs hq, p, hbottom, hfields _ ht⟩
  have hsteps : ∀ {qs qs' : List State}, qs ⊆ qs' → s.fieldSteps qs ⊆ s'.fieldSteps qs' := by
    intro qs qs' hqs t ht
    obtain ⟨ht, hsource, hstep⟩ := (mem_fieldSteps_iff h qs t).1 ht
    exact (mem_fieldSteps_iff h' qs' t).2 ⟨hfields t ht, hqs hsource, hstep⟩
  intro fs hfs
  -- By the stack and not by the limit, which bounds both readings alike.
  induction fs generalizing limit qs qs' with
  | nil =>
    rw [nil_mem_stacksFrom_iff] at hfs ⊢
    exact hends hqs hfs
  | cons f fs ih =>
    cases limit with
    | zero =>
      simp only [stacksFrom] at hfs
      split at hfs <;> simp at hfs
    | succ limit =>
      obtain ⟨⟨t, ht, hf⟩, hfs⟩ := (cons_mem_stacksFrom_iff qs limit f fs).1 hfs
      refine (cons_mem_stacksFrom_iff qs' limit f fs).2 ⟨⟨t, hsteps hqs ht, hf⟩, ih ?_ hfs⟩
      intro p hp
      obtain ⟨t, ht, hlabel, htarget⟩ := (mem_fieldTargets_iff qs f p).1 hp
      exact (mem_fieldTargets_iff qs' f p).2 ⟨t, hsteps hqs ht, hlabel, htarget⟩

/-- The access paths of a solver are those of any solver that has as much. -/
theorem Embeds.accessPathsAt {R : SolverId → SolverId → Prop} (h : s.Embeds R s')
    (hs : s.fields.Consistent) (hs' : s'.fields.Consistent) (hidle : s.pending.toList = [])
    (stmt : Statement) : s.accessPathsAt stmt ⊆ s'.accessPathsAt stmt := by
  intro path hpath
  rw [mem_accessPathsAt_iff] at hpath ⊢
  obtain ⟨hreached, hfields⟩ := hpath
  refine ⟨(h.processed ⟨hreached, by rw [hidle]; exact not_mem_nil⟩).1, ?_⟩
  exact stacksFrom_subset hs hs' (fun _ => h.fields) (List.Subset.refl _) hfields

end Paths

end Solver

/-! ### Runs that converge -/

namespace Session

variable [Weight ω] [DecidableEq ω]

/-- All that is answered by the one run is answered by the other: the allocations and aliases of
    a backward query, and the nodes of a forward query. -/
def AnswersWithin (session : Session ω) (r : Run ω) (session' : Session ω) (r' : Run ω) :
    Query → Prop
  | .backward q => ∃ result result', session.endBackward q r = .ok result ∧
    session'.endBackward q r' = .ok result' ∧ result.allocations ⊆ result'.allocations ∧
    result.aliases ⊆ result'.aliases
  | .forward q => ∃ result result', session.endForward q r = .ok result ∧
    session'.endForward q r' = .ok result' ∧ result.nodes ⊆ result'.nodes

/-- The runs give the same answer. -/
def SameAnswer (session : Session ω) (r : Run ω) (session' : Session ω) (r' : Run ω) :
    Query → Prop
  | .backward q => ∃ result result', session.endBackward q r = .ok result ∧
    session'.endBackward q r' = .ok result' ∧ result.allocations = result'.allocations ∧
    result.aliases = result'.aliases
  | .forward q => ∃ result result', session.endForward q r = .ok result ∧
    session'.endForward q r' = .ok result' ∧ result.nodes = result'.nodes

/-- The first solvers of the runs, which answer their queries, have the same, but for the numbers
    of solvers. -/
def SameSolver (r r' : Run ω) : Prop :=
  ∃ s s', r.solver? ⟨0⟩ = some s ∧ r'.solver? ⟨0⟩ = some s' ∧
    Run.SolversAgree (r.Names.Same r'.Names) s s'

namespace ConvergesTo

variable {session session' : Session ω} {q : Query} {r r' : Run ω}

theorem endBackward {q : BackwardQuery} (h : session.ConvergesTo (.backward q) r) :
    session.endBackward q r = .ok (r.backwardResult session.setting q ⟨0⟩) := by
  simp [Session.endBackward, failure?, h.converged]

variable [ZeroFree ω]

section

variable (hc : session.setting.weighing.ZeroFree) (h : session.ConvergesTo q r)
include hc h

/-- The run is within any closed bound within which it begins. -/
theorem within {b : RunBound ω} (hb : b.Closed session.setting) (hw : (session.begin q).Within b) :
    r.Within b := by
  obtain ⟨elapsed, n, rfl⟩ := h.advances
  exact (Run.maintained_within hb hc).advance hc (Run.orderly_begin session q).1 hw elapsed n

/-- Each allocation was found once. -/
theorem distinct : r.Distinct := by
  obtain ⟨elapsed, n, rfl⟩ := h.advances
  exact (Run.maintained_distinct _).advance hc (Run.orderly_begin session q).1
    (.of_standing (fun id => by simp [get_empty]) (Run.standing_begin session q)) elapsed n

end

variable (hc : session.setting.weighing.ZeroFree)
include hc

section

variable (hc' : session'.setting.weighing.ZeroFree) (h : session.ConvergesTo q r)
  (h' : session'.ConvergesTo q r')
include hc' h h'

/-- Runs that have as much as each other have the same solver of the query. -/
theorem sameSolver (hembeds : r.Embeds r') (hembeds' : r'.Embeds r) : SameSolver r r' := by
  obtain ⟨s, hs, -⟩ := (h.complete hc).ids (h.names hc)
  obtain ⟨s', hs', -⟩ := (h'.complete hc').ids (h'.names hc')
  exact ⟨s, s', hs, hs', (hembeds.agrees hembeds').solvers (h.names hc) (h'.names hc') hs hs'⟩

end

/-- If aliases are asked for, the allocations found are followed. -/
theorem followed {q : BackwardQuery} (h : session.ConvergesTo (.backward q) r)
    (hreport : session.setting.options.reportAliases = true) {a : ForwardQuery}
    (ha : a ∈ r.allocations.get ⟨0⟩) : ∃ id, r.Names id (.forward a) :=
  (h.complete hc).notified ((h.grows hc).subscribers (aliases_mem_subscribers hreport q)) ha

end ConvergesTo

/-! ### Two runs -/

section Reach

variable {session session' : Session Reach} {q : Query} {r r' : Run Reach}

/-- The aliases that one run finds are found by another one that follows the same allocations, and
    has as much of each of them. -/
theorem aliasesAt_subset (hr : r.Complete session.setting) (hr' : r'.Complete session'.setting)
    (hsolvers : ∀ {q id id' s s'}, r.Names id q → r'.Names id' q → r.solver? id = some s →
      r'.solver? id' = some s' → s.Embeds (r.Names.Same r'.Names) s')
    {as as' : List ForwardQuery} (has : as ⊆ as')
    (hfollowed : ∀ a ∈ as', ∃ id, r'.Names id (.forward a)) (stmt : Statement) :
    r.aliasesAt stmt as ⊆ r'.aliasesAt stmt as' := by
  intro path hpath
  rw [Run.mem_aliasesAt_iff] at hpath ⊢
  obtain ⟨a, ha, id, s, hid, hs, hpath⟩ := hpath
  obtain ⟨id', hid'⟩ := hfollowed a (has ha)
  obtain ⟨s', hs', -⟩ := hr'.ids hid'
  refine ⟨a, has ha, id', s', hid', hs', ?_⟩
  have hfinished := hr.finished hs
  exact (hsolvers hid hid' hs hs').accessPathsAt hfinished.sound.fields
    (hr'.finished hs').sound.fields hfinished.idle stmt hpath

section

variable (hweighing : session.setting.weighing = .reach)
  (hweighing' : session'.setting.weighing = .reach)
  (hreport : session'.setting.options.reportAliases = session.setting.options.reportAliases)
  (h : session.ConvergesTo q r) (h' : session'.ConvergesTo q r')
include hweighing hweighing' hreport h h'

/-- A run that converges answers all that another one answers of whose solvers it has as much. -/
theorem ConvergesTo.answersWithin
    (hsolvers : ∀ {q id id' s s'}, r.Names id q → r'.Names id' q → r.solver? id = some s →
    r'.solver? id' = some s' → s.Embeds (r.Names.Same r'.Names) s')
    (hallocations : r.allocations.get ⟨0⟩ ⊆ r'.allocations.get ⟨0⟩) :
    session.AnswersWithin r session' r' q := by
  have hfree : session.setting.weighing.ZeroFree := hweighing ▸ zeroFree_reach
  have hfree' : session'.setting.weighing.ZeroFree := hweighing' ▸ zeroFree_reach
  cases q with
  | backward =>
    have hsub : r.allocationsOf ⟨0⟩ ⊆ r'.allocationsOf ⟨0⟩ := by
      simpa only [Run.allocationsOf, sorted, List.subset_def, mem_mergeSort] using hallocations
    refine ⟨_, _, h.endBackward, h'.endBackward, hsub, ?_⟩
    simp only [Run.backwardResult, hreport]
    split
    · next hreports =>
      refine aliasesAt_subset (h.complete hfree) (h'.complete hfree') hsolvers hsub (fun a ha => ?_) _
      exact h'.followed hfree' (hreport.trans hreports) (mem_mergeSort.1 ha)
    · exact List.Subset.refl _
  | forward q =>
    obtain ⟨result, hconverges⟩ := h.converges
    obtain ⟨result', hconverges'⟩ := h'.converges
    refine ⟨result, result', hconverges.answer, hconverges'.answer, ?_⟩
    obtain ⟨s, hid, hs, hconcluded, rfl⟩ := hconverges.exists_concluded hfree
    obtain ⟨s', hid', hs', hconcluded', rfl⟩ := hconverges'.exists_concluded hfree'
    exact fun n => (hsolvers hid hid' hs hs').nodes
      (Run.unambiguous_same (hconverges.inj hfree)) hconcluded hconcluded'
      (Pushdown.keepsAll_of_reach hweighing q) (Pushdown.keepsAll_of_reach hweighing' q)

/-- A run that has all that another one has answers all that the other one does. -/
theorem ConvergesTo.answersWithin_of_embeds (hembeds : r.Embeds r') :
    session.AnswersWithin r session' r' q := by
  have hid := h.names (hweighing ▸ zeroFree_reach)
  have hid' := h'.names (hweighing' ▸ zeroFree_reach)
  refine h.answersWithin hweighing hweighing' hreport h' (fun hid hid' hs hs' =>
    hembeds.solver hid hid' hs hs') fun a ha => ?_
  obtain ⟨id', hid₁, ha'⟩ := hembeds.allocations hid ha
  cases some.inj (hid'.symm.trans hid₁)
  exact ha'

end

/-- The answer to a backward query is in order and without repetition. -/
theorem ConvergesTo.inOrder_backwardResult (hc : session.setting.weighing.ZeroFree)
    {q : BackwardQuery} {result : BackwardResult} (h : session.ConvergesTo (.backward q) r)
    (hresult : session.endBackward q r = .ok result) :
    (InOrder result.allocations ∧ result.allocations.Nodup) ∧
      InOrder result.aliases ∧ result.aliases.Nodup := by
  cases hresult.symm.trans h.endBackward
  refine ⟨⟨inOrder_sorted _, nodup_sorted (h.distinct hc ⟨0⟩)⟩, ?_⟩
  simp only [Run.backwardResult]
  split
  · exact inOrder_sortedUnique _
  · exact ⟨.nil, .nil⟩

/-- Runs that answer as much as each other give the same answer. -/
theorem ConvergesTo.sameAnswer (hc : session.setting.weighing.ZeroFree)
    (hc' : session'.setting.weighing.ZeroFree) (h : session.ConvergesTo q r)
    (h' : session'.ConvergesTo q r') (hle : session.AnswersWithin r session' r' q)
    (hge : session'.AnswersWithin r' session r q) : session.SameAnswer r session' r' q := by
  cases q with
  | backward =>
    obtain ⟨result, result', hresult, hresult', hallocations, haliases⟩ := hle
    obtain ⟨_, _, heq', heq, hallocations', haliases'⟩ := hge
    cases hresult'.symm.trans heq'
    cases hresult.symm.trans heq
    obtain ⟨hordered, hpaths⟩ := h.inOrder_backwardResult hc hresult
    obtain ⟨hordered', hpaths'⟩ := h'.inOrder_backwardResult hc' hresult'
    exact ⟨result, result', hresult, hresult', eq_of_subset hordered hordered' hallocations
      hallocations', eq_of_subset hpaths hpaths' haliases haliases'⟩
  | forward q =>
    obtain ⟨result, result', hresult, hresult', hnodes⟩ := hle
    obtain ⟨_, _, heq', heq, hnodes'⟩ := hge
    cases hresult'.symm.trans heq'
    cases hresult.symm.trans heq
    refine ⟨result, result', hresult, hresult', ?_⟩
    obtain ⟨s, -, -, -, rfl⟩ := Converges.exists_concluded hc ⟨h.advances, h.converged, hresult⟩
    obtain ⟨s', -, -, -, rfl⟩ :=
      Converges.exists_concluded hc' ⟨h'.advances, h'.converged, hresult'⟩
    exact eq_of_subset (Run.inOrder_tableOf _ s q) (Run.inOrder_tableOf _ s' q) hnodes hnodes'

end Reach

end Session

end DemandAlias
