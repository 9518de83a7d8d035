import DemandAlias.Proofs.Context.Frames
import DemandAlias.Proofs.Run.Evaluation
import DemandAlias.Proofs.Run.Sessions

/-!
# Calling contexts of runs

A message that tells of a calling context comes from a solver that has it
(`Solver.Sends.knownAt`). So only frames that are there get copied, and passing messages on keeps to
the bound (`RunBound.passing_framing`). A run is then always within the bound of how far it has come
(`Run.maintained_framing`). It begins with the edges that its session has found, and these are edges
of the program, whatever was asked before (`Session.Arises.hasEdge`). So the calling contexts of all
runs are well formed (`Session.contextsFormed_of_runs`).
-/

namespace DemandAlias

open Solver

variable {ω : Type} {p : Program} {w : Extent} {N : Naming} {q : Query} {c : Setting ω}

/-! ### Messages -/

section Messages

variable {graph : CallGraph} (hp : p.IsLaidOut) (howned : p.LocalsOwned)

include hp howned

theorem resolves_framing {site : Statement} (hsite : site ∈ p.statements) :
    (RunBound.framing p w graph : RunBound ω).Resolves p N site := by
  unfold RunBound.Resolves
  split
  · exact fun hm => .inr ⟨⟨hsite, hm⟩, ⟨hsite, hm⟩⟩
  · next receiver name args hcall =>
    refine ⟨owns_of_mem_locals hp howned hsite ?_, hsite⟩
    exact Statement.locals_of_call? hcall (Call.mem_locals_of_receiver? rfl)
  · trivial

theorem passes_framing (hc : c.program = p)
    (hN : (RunBound.framing p w graph : RunBound ω).Admits N) {sender : SolverId}
    (hsender : N sender q) {m : Message} (hm : m.FramedAt p w N q) (hknown : m.KnownAt w q) :
    (RunBound.framing p w graph).Passes c N sender q m := by
  have hbackward : ∀ {id q'}, N.Goes .backward id → N id q' → q'.direction = .backward :=
    fun ⟨q₁, hq₁, hid⟩ hq' => hN.inj hid hq' ▸ hq₁
  have hcopies : ∀ {requester m state}, Vocabulary.Asked N q requester →
      ContextAt p w N q m state →
      (RunBound.framing p w graph : RunBound ω).Copies N q requester state :=
    fun {requester m state} hasked h => h.imp_right fun hframe => ⟨hasked, m, state, rfl, hframe⟩
  cases m with
  | wanted x =>
    intro _ site hsite
    rw [hc] at hsite ⊢
    cases x with
    | into =>
      rw [mem_singleton.1 hsite]
      exact resolves_framing hp howned hm
    | outOf => exact resolves_framing hp howned (mem_filter.1 hsite).1
  | fieldWrite => exact ⟨hm.2, hm.1⟩
  | allocation =>
    obtain ⟨hq, hn⟩ := hm
    exact fun _ => ⟨fun _ => hn, fun _ => ⟨hn, rfl, q, hq, hsender⟩⟩
  | aliasAt _ _ field other frames =>
    obtain ⟨hstore, hother, hlanding⟩ := hm
    intro q' _
    rw [hc]
    refine Run.forall_aliasChanges ?_ ?_
    · rintro rfl t ht
      -- A store is followed by statements of its own method.
      have hmethod := hp.method_of_mem_successors ht
      have htarget : p.Owns ⟨t, other.var⟩ := by
        refine ⟨hp.mem_statements_of_mem_successors ht, ?_⟩
        rw [hother.2, hmethod]
        exact hlanding.symm
      exact allows_framing_step (m := .push ⟨t, other.var⟩ (.field field)) rfl htarget hmethod
    · rintro frame frames rfl
      exact ⟨hother, hother, _, _, rfl, hlanding⟩
  | storeFound =>
    obtain ⟨hasked, hstore, hvalue⟩ := hm
    exact ⟨fun _ _ => hvalue, hasked, hvalue, _, _, rfl, rfl⟩
  | storeContext =>
    obtain ⟨hasked, hvalue, hcontext⟩ := hm
    refine ⟨hcopies hasked hcontext, fun q' hq' => framedAt_callAt hvalue ?_⟩
    exact hcontext.copyOf hsender hasked.1 (hbackward hasked.2 hq') hknown
  | copied =>
    obtain ⟨hasked, ⟨m, hframe, hsite, hedge⟩, htarget⟩ := hm
    refine ⟨hcopies hasked (.inr hframe), hcopies hasked htarget, fun q' hq' => ?_⟩
    have hq'' := hbackward hasked.2 hq'
    exact ⟨.inr ⟨m, hframe.copyOf hsender hasked.1 hq'' hknown.1, hsite, hedge⟩,
      htarget.copyOf hsender hasked.1 hq'' hknown.2⟩
  | unreachable => trivial

theorem RunBound.passing_framing [Weight ω] (hc : c.program = p) (w : Extent) (graph : CallGraph) :
    (RunBound.framing p w graph : RunBound ω).Passing c where
  solver_mono hN _ := Bound.framing_le (.refl w) hN
  subscriber_mono _ _ _ h := h
  start hq := by
    refine ⟨framedAt_callAt hq (.inl rfl), ?_, trivial, trivial⟩
    rintro n ⟨⟩
    exact hq
  message hN hsender hm _ := passes_framing hp howned hc hN hsender hm.1 hm.2
  notice {N q k a size} _ _ hk _ ha := by
    rw [hc]
    cases k with
    | resolve =>
      intro m hm
      obtain ⟨className, -, hm⟩ := bind_eq_some_iff.1 hm
      have hdefines := Program.defines_of_dispatch hm
      exact .inr ⟨⟨hk, hdefines⟩, ⟨hk, hdefines⟩⟩
    | fieldWrite =>
      exact ⟨ha, forall_watchChanges hk hk⟩
    | aliases => exact ha

end Messages

/-- The contexts that a solver tells of are states it has. -/
theorem Solver.Sends.knownAt [Weight ω] {s : Solver ω} (hs : s.Sound)
    (hhas : ∀ {e}, s.HasState e → w.has q e) {m : Message} (h : s.Sends c m) : m.KnownAt w q := by
  cases h with
  | call hpoll hm =>
    obtain ⟨ht, -⟩ := delivered_of_poll? hs.calls hpoll
    cases CallRule.yields_of_mem hm with
    | request hm =>
      cases hm with
      | storeContext => exact hhas ⟨_, ht, .inr rfl⟩
      | copied => exact ⟨hhas ⟨_, ht, .inl rfl⟩, hhas ⟨_, ht, .inr rfl⟩⟩
  | field _ hm =>
    cases FieldRule.yields_of_mem hm with
    | request hm => cases hm <;> trivial
  | wanted | fieldWrite | unreachable => trivial

/-! ### Runs -/

namespace Run

variable {r : Run ω}

/-- What a solver does stays within the bound of how far the run has come, if it only tells of
    contexts it has. -/
theorem Within.framing_of_known {graph : CallGraph} {s s' : Solver ω}
    (hs : s.Within ((RunBound.framing p r.extent graph).solver r.Names q))
    (hstep : s.Within (.framing p r.extent r.Names q fun _ => True) →
      s'.Within (.framing p r.extent r.Names q fun _ => True))
    (hknown : ∀ m ∈ s'.outbox, m.KnownAt r.extent q) :
    s'.Within ((RunBound.framing p r.extent graph).solver r.Names q) := by
  have hs' := hstep { hs with message := fun hm => ⟨(hs.message hm).1, trivial⟩ }
  exact { hs' with message := fun hm => ⟨(hs'.message hm).1, hknown _ hm⟩ }

variable [Weight ω] [DecidableEq ω]

theorem hasFrame_of_frameAt (ho : r.Orderly c) {s : Solver ω}
    (hdirection : s.direction = q.direction) {m : MethodName} {e : State}
    (h : FrameAt p r.extent r.Names q m e) :
    r.HasFrame p s.direction m e := by
  cases h with
  | own he => exact .own (hdirection ▸ he)
  | copy hq hid hforward he hhas =>
    obtain ⟨id', hid', hstate⟩ := hhas
    -- Each query has one solver, so this is the one that has the frame.
    cases some.inj (hid.symm.trans hid')
    obtain ⟨s', hs', -, hdirection'⟩ := ho.ids hid
    exact .copy (hdirection.trans hq) hs' (hdirection'.trans hforward) he (hstate.of_solver? hs')

/-- Within the bound of how far it has come, a run has contexts that are well formed. -/
theorem Within.contextsFormed (ho : r.Orderly c) {graph : CallGraph}
    (hw : r.Within (.framing p r.extent graph)) : r.ContextsFormed p := by
  intro id s hs t ht
  obtain ⟨q, hq⟩ := hw.named hs
  obtain ⟨hseed, hdirection⟩ := (ho.ids hq).of_solver? hs
  obtain ⟨hsource, htarget⟩ := (hw.solver hq hs).call ht
  have hcontext : r.IsContext p s t.label.method t.target := by
    refine htarget.imp (fun hbottom => ?_) (hasFrame_of_frameAt ho hdirection)
    rw [hbottom, bottom, hseed]
  obtain ⟨source, label, target⟩ := t
  rcases hsource with ⟨v, rfl, hn⟩ | ⟨m, hframe, hsite, hedge⟩
  · exact ⟨.node hn hcontext, fun h => State.noConfusion h⟩
  · exact ⟨.frame (hasFrame_of_frameAt ho hdirection hframe) hsite hedge hcontext,
      hframe.ne_bottom s.seed⟩

variable [ZeroFree ω]

/-- Runs stay within the bound of how far they have come. -/
theorem maintained_framing (hp : p.IsLaidOut) (howned : p.LocalsOwned) (hc : c.program = p)
    (hzero : c.weighing.ZeroFree) (graph : CallGraph) :
    Maintained c fun r => r.Within (.framing p r.extent graph) := by
  have hclosed : ∀ {r : Run ω}, r.Orderly c → r.Within (.framing p r.extent graph) →
      ∀ {id q s}, r.Names id q → r.solver? id = some s →
      (Bound.framing p r.extent r.Names q fun _ => True).Closed c r.graph s := by
    intro r ho hw id q s hq hs
    obtain ⟨hseed, hdirection⟩ := (ho.ids hq).of_solver? hs
    exact Bound.closed_framing hp howned hc hw.edge hdirection hseed
  refine maintained_within_growing (b := fun r => .framing p r.extent graph)
    (fun r => RunBound.passing_framing hp howned hc r.extent graph) hzero (fun _ _ _ => rfl)
    (fun h => RunBound.framing_le h.extent graph) ?_ ?_
  · intro r ho hw id q s hq hs
    refine Within.framing_of_known (hw.solver hq hs)
      (fun h => h.refresh (hclosed ho hw hq hs) (ho.kept hs).sound) fun m hm => ?_
    -- Nothing is told when a solver catches up with the call graph.
    rw [Solver.outbox_refresh, ho.quiet hs] at hm
    cases hm
  · intro r ho hw id q s hq hs queue
    have hsound := (ho.kept hs).sound
    refine Within.framing_of_known (hw.solver hq hs)
      (fun h => h.serveQueue hzero (hclosed ho hw hq hs) hsound queue) fun m hm => ?_
    rcases Solver.mem_outbox_serveQueue hm with hm | hsends
    · rw [ho.quiet hs] at hm
      cases hm
    · exact hsends.knownAt (w := r.extent) hsound fun he => ⟨id, hq, s, hs, he⟩

end Run

/-! ### Sessions -/

namespace Session

variable [Weight ω] [DecidableEq ω] [ZeroFree ω] {session : Session ω} {r : Run ω}

section Runs

variable (h : session.Runs q r) (hp : session.setting.program.IsLaidOut)
  (howned : session.setting.program.LocalsOwned) (hc : session.setting.weighing.ZeroFree)
  (hedges : ∀ {x : Crossing} {e}, e ∈ x.edges session.graph → session.setting.program.HasEdge e)
  (hq : session.setting.program.Owns q.node)

include h hp howned hc hedges hq

/-- A run is within the bound of how far it has come if its session has found edges of the program
    only. -/
theorem Runs.within_framing : r.Orderly session.setting ∧
    r.Within (.framing session.setting.program r.extent session.graph) := by
  have hbegin := Run.within_begin session
    (RunBound.passing_framing hp howned rfl (session.begin q).extent session.graph) rfl hedges hq
    fun _ _ _ => trivial
  obtain ⟨ho, hw⟩ := h.maintains (Run.maintained_framing hp howned rfl hc session.graph) hc hbegin
  exact ⟨ho, hw⟩

theorem Runs.contextsFormed : r.ContextsFormed session.setting.program := by
  obtain ⟨ho, hw⟩ := h.within_framing hp howned hc hedges hq
  exact hw.contextsFormed ho

end Runs

theorem Arises.contextsFormed (h : Arises c session) (hp : c.program.IsLaidOut)
    (howned : c.program.LocalsOwned) (hc : c.weighing.ZeroFree) (hq : c.program.Owns q.node)
    (hr : session.Runs q r) : r.ContextsFormed c.program := by
  obtain rfl := h.setting_eq
  exact hr.contextsFormed hp howned hc (h.hasEdge hp hc) hq

/-- The calling contexts of every run for a query at a statement and a local of one method are well
    formed, whatever was asked before, whether reachability is asked for or trails. -/
theorem contextsFormed_of_runs {d : Description} {p : Program} (hp : d.resolve = .ok p)
    (scope : Scope) (options : Options) {q : Query} (hq : p.Owns q.node) :
    (∀ (session : Session Reach) (r : Run Reach), Arises ⟨p, scope, .reach, options⟩ session →
      session.Runs q r → r.ContextsFormed p) ∧
    ∀ (session : Session Trail) (r : Run Trail), Arises ⟨p, scope, .trail, options⟩ session →
      session.Runs q r → r.ContextsFormed p := by
  have hlaid := isLaidOut_of_resolve hp
  have howned := Description.localsOwned_of_resolve hp
  refine ⟨fun session r h hr => ?_, fun session r h hr => ?_⟩
  · exact h.contextsFormed hlaid howned zeroFree_reach hq hr
  · exact h.contextsFormed hlaid howned zeroFree_trail hq hr

end Session

/-! ### An example -/

namespace Stowing

def stow : MethodName := ⟨"Box.stow"⟩

def main : MethodName := ⟨"Main.main"⟩

def stowed : Local := ⟨stow, "b"⟩

def box : Local := ⟨main, "x"⟩

def loaded : Local := ⟨main, "y"⟩

def field : Field := .named "f"

/-- A method writes to a field of what it is passed, and the field is read after the call. -/
def description : Description where
  classes := []
  methods := [
    { name := "Box.stow"
      params := ["b"]
      body := [.store "b" "f" "b"] },
    { name := "Main.main"
      body := [.new "x" "Box", .call none "Box.stow" [.var "x"], .load "y" "x" "f"] }]

def program : Program where
  classes := []
  methods := [
    .ofActions stow none [stowed] [.store stowed field stowed, .ret none],
    .ofActions main none [] [.assign box (.alloc ⟨"Box"⟩), .call ⟨.static stow, [.var box]⟩,
      .assign loaded (.load box field), .ret none]]
  unreachable := []

theorem resolve_description : description.resolve = .ok program :=
  Description.resolve_inOrder rfl rfl rfl (by decide) (by decide)

def setting (weighing : Weighing ω) : Setting ω := ⟨program, .everything, weighing, {}⟩

/-- What was read? -/
def query : BackwardQuery := ⟨⟨⟨main, 3, .ret none⟩, loaded⟩⟩

theorem owns_query : program.Owns query.node := ⟨by decide, rfl⟩

/-- The frame in which the field is written to, copied from the solver that tracks the box. -/
def frame : State := frameOf ⟨⟨stow, 0, .store stowed field stowed⟩, stowed⟩

def copied : State := .generated frame (.imported ⟨1⟩)

variable [Weight ω] [DecidableEq ω]

def listing (weighing : Weighing ω) : Run.Listing ω :=
  (Run.Listing.beginBackward (setting weighing) query).advance (setting weighing) 0 60

/-- A call site leads on from the copied frame. -/
def leavesCopied (ts : List CallTransition) : Bool := ts.any fun t => t.source = copied

/-- There is a run with a frame that is copied. -/
theorem exists_copied {weighing : Weighing ω}
    (h : (((listing weighing).solver? ⟨0⟩).any fun l => leavesCopied l.calls.transitions) = true)
    (hformed : ∀ session r, Session.Arises (setting weighing) session →
      session.Runs (.backward query) r → r.ContextsFormed program) :
    ∃ r s, (Session.start (setting weighing)).Runs (.backward query) r ∧
      r.ContextsFormed program ∧ r.solver? ⟨0⟩ = some s ∧
      ∃ t ∈ s.calls.transitions, t.source = copied := by
  obtain ⟨r, hr, hlisted⟩ := Session.exists_runs (setting weighing) (.backward query) 60
  obtain ⟨s, hs, hleaves⟩ := hlisted.exists_calls h
  obtain ⟨t, ht, hsource⟩ := any_eq_true.1 hleaves
  exact ⟨_, s, hr, hformed _ _ .start hr, hs, t, ht, of_decide_eq_true hsource⟩

theorem copied_reach :
    (((listing .reach).solver? ⟨0⟩).any fun l => leavesCopied l.calls.transitions) = true := by
  decide +kernel

theorem copied_trail :
    (((listing .trail).solver? ⟨0⟩).any fun l => leavesCopied l.calls.transitions) = true := by
  decide +kernel

end Stowing

/-- The solver of the query comes to know of the call in which the field was written to. -/
theorem Session.contextsFormed_stowing : Stowing.description.resolve = .ok Stowing.program ∧
    Stowing.program.Owns Stowing.query.node ∧
    (∃ r s, (start (Stowing.setting .reach)).Runs (.backward Stowing.query) r ∧
      r.ContextsFormed Stowing.program ∧ r.solver? ⟨0⟩ = some s ∧
      ∃ t ∈ s.calls.transitions, t.source = Stowing.copied) ∧
    ∃ r s, (start (Stowing.setting .trail)).Runs (.backward Stowing.query) r ∧
      r.ContextsFormed Stowing.program ∧ r.solver? ⟨0⟩ = some s ∧
      ∃ t ∈ s.calls.transitions, t.source = Stowing.copied := by
  obtain ⟨hreach, htrail⟩ := contextsFormed_of_runs Stowing.resolve_description .everything {}
    (q := .backward Stowing.query) Stowing.owns_query
  exact ⟨Stowing.resolve_description, Stowing.owns_query,
    Stowing.exists_copied Stowing.copied_reach hreach,
    Stowing.exists_copied Stowing.copied_trail htrail⟩

end DemandAlias
