import DemandAlias.Proofs.Run.Bound

/-!
# Weights lead nowhere

Weights say how a value gets to a place, not to which. The *outline* of a rule, a change
or a setting is what is left of it when only reachability is asked for, each weight being
replaced by the one of a way. Whatever the weights are, the changes a rule makes have the
outline of those that its own outline makes (`CallRule.outline_changes`), and all other
changes do not depend on weights in the first place.

So a bound can be read up to weights, and then be used for an analysis with other ones
(`Bound.reweigh`, `RunBound.reweigh`). If it is closed for the one, it is closed for the
other (`RunBound.Closed.reweigh`).
-/

namespace DemandAlias

variable {ω ω' : Type}
variable {c : Setting ω} {c' : Setting ω'}

/-! ### Outlines -/

/-- The rule, whatever its weight is. -/
def CallRule.outline : CallRule ω → CallRule Reach
  | .reach => .reach
  | .step source target => .step source target
  | .push source target site => .push source target site
  | .pop source target site => .pop source target site
  | .popMatch target _ => .popMatch target .one
  | .unwind target frames => .unwind target frames
  | .request r => .request r

/-- The change, whatever its weight is. -/
def Change.outline : Change ω → Change Reach
  | .call t _ => .call t .one
  | .field t => .field t
  | .callRule topic rule => .callRule topic rule.outline
  | .fieldRule topic rule => .fieldRule topic rule
  | .reachByCalls n => .reachByCalls n
  | .reachByFields n => .reachByFields n
  | .message m => .message m
  | .callRequest state topic r => .callRequest state topic r
  | .fieldRequest state topic r => .fieldRequest state topic r
  | .unwind state label target frames => .unwind state label target frames

/-- The setting of an analysis of the same that only asks for reachability. -/
def Setting.outline (c : Setting ω) : Setting Reach := ⟨c.program, c.scope, .reach, c.options⟩

@[simp] theorem CallRule.outline_outline (rule : CallRule ω) :
    rule.outline.outline = rule.outline := by
  cases rule <;> rfl

theorem Setting.program_of_outline (h : c'.outline = c.outline) : c'.program = c.program :=
  congrArg (fun o => o.program) h

theorem Setting.options_of_outline (h : c'.outline = c.outline) : c'.options = c.options :=
  congrArg (fun o => o.options) h

/-! ### Outlines of changes -/

section Changes

theorem Move.outline_changes (n : Node) (m : Move) :
    (m.changes n : List (Change ω)).map Change.outline = m.changes n := by
  rcases m with target | ⟨target, site | f⟩ | ⟨target, site | f⟩ <;> rfl

theorem Effect.outline_changes (n : Node) (e : Effect) :
    (e.changes n : List (Change ω)).map Change.outline = e.changes n := by
  cases e <;> rfl

theorem outline_searchChanges (bottom q : State) (requester : SolverId) (store : Node)
    (field : Field) (frames : List Statement) :
    (searchChanges bottom q requester store field frames : List (Change ω)).map Change.outline =
      searchChanges bottom q requester store field frames := by
  unfold searchChanges
  split <;> rfl

theorem CallRequest.outline_changes (p : Program) (bottom : State) (r : CallRequest)
    (t : CallTransition) :
    (r.changes p bottom t : List (Change ω)).map Change.outline = r.changes p bottom t := by
  cases r with
  | callerFrames =>
    simp only [changes]
    split
    · exact outline_searchChanges ..
    · rw [map_cons]
      split
      · rfl
      · rw [outline_searchChanges]
        rfl
  | returnSites =>
    simp only [changes]
    split
    · split <;> rfl
    · rfl
  | storeContext | copy => rfl

/-- The changes a rule makes have the outline of those that its outline makes. -/
theorem CallRule.outline_changes [Weight ω] (c : Setting ω) (bottom : State) (rule : CallRule ω)
    (t : CallTransition) (w : ω) :
    (rule.changes c bottom t w).map Change.outline =
      rule.outline.changes c.outline bottom t .one := by
  cases rule with
  | reach =>
    simp only [changes, outline]
    split <;> rfl
  | step | push => rfl
  | pop =>
    simp only [changes, outline]
    split <;> rfl
  | popMatch => rfl
  | unwind _ frames =>
    cases frames with
    | nil => rfl
    | cons =>
      simp only [changes, outline]
      split <;> rfl
  | request r => exact r.outline_changes c.program bottom t

theorem FieldRequest.outline_changes (r : FieldRequest) (t : FieldTransition) :
    (r.changes t : List (Change ω)).map Change.outline = r.changes t := by
  unfold changes
  split
  · rfl
  · split <;> rfl
  · rfl
  · split
    · split <;> rfl
    · rfl
  · rfl

theorem FieldRule.outline_changes (rule : FieldRule) (t : FieldTransition) :
    (rule.changes t : List (Change ω)).map Change.outline = rule.changes t := by
  cases rule with
  | reach =>
    simp only [changes]
    split <;> rfl
  | step | push => rfl
  | pop =>
    simp only [changes]
    split <;> rfl
  | popMatch => rfl
  | request r => exact r.outline_changes t

theorem Run.outline_aliasChanges (p : Program) (store : Node) (field : Field) (other : Node)
    (frames : List Statement) :
    (aliasChanges p store field other frames : List (Change ω)).map Change.outline =
      aliasChanges p store field other frames := by
  cases frames with
  | nil => simp only [aliasChanges, List.map_flatMap, Move.outline_changes]
  | cons => rfl

end Changes

/-! ### Bounds up to weights -/

namespace Bound

/-- What the bound allows for some weights. -/
def reweigh (b : Bound ω) : Bound ω' where
  call := b.call
  field := b.field
  callRule topic rule := ∃ rule' : CallRule ω, rule'.outline = rule.outline ∧ b.callRule topic rule'
  fieldRule := b.fieldRule
  message := b.message
  watcher := b.watcher

variable {b : Bound ω}

theorem allows_outline {x : Change ω} (h : b.Allows x) :
    (b.reweigh : Bound Reach).Allows x.outline := by
  cases x with
  | callRule _ rule => exact ⟨rule, rule.outline_outline.symm, h⟩
  | callRequest _ _ r => exact ⟨.request r, rfl, h⟩
  | unwind _ _ target frames => exact ⟨.unwind target frames, rfl, h⟩
  | _ => exact h

theorem allows_of_outline {x : Change ω'} (h : (b.reweigh : Bound Reach).Allows x.outline) :
    (b.reweigh : Bound ω').Allows x := by
  cases x with
  | callRule _ rule =>
    obtain ⟨rule', heq, hrule⟩ := h
    exact ⟨rule', heq.trans rule.outline_outline, hrule⟩
  | _ => exact h

/-- Changes of the same outline are allowed. -/
theorem allows_reweigh {xs : List (Change ω)} {xs' : List (Change ω')}
    (hsame : xs'.map Change.outline = xs.map Change.outline) (h : ∀ x ∈ xs, b.Allows x) :
    ∀ x ∈ xs', (b.reweigh : Bound ω').Allows x := by
  intro x' hx'
  have hmem : x'.outline ∈ xs.map Change.outline := hsame ▸ List.mem_map_of_mem hx'
  obtain ⟨x, hx, heq⟩ := mem_map.1 hmem
  exact allows_of_outline (heq ▸ allows_outline (h x hx))

/-- A bound closed for some weights is closed for all, up to weights. -/
theorem Closed.reweigh [Weight ω] [Weight ω'] {c : Setting ω} {c' : Setting ω'}
    (hc : c'.outline = c.outline) {g : CallGraph} {s : Solver ω} {s' : Solver ω'}
    (hdirection : s'.direction = s.direction) (hseed : s'.seed = s.seed) (h : b.Closed c g s) :
    (b.reweigh : Bound ω').Closed c' g s' := by
  have hprogram := Setting.program_of_outline hc
  have hscope : c'.scope = c.scope := congrArg (·.scope) hc
  have hbottom : s'.bottom = s.bottom := by rw [bottom, bottom, hseed]
  refine ⟨?_, ?_, ?_, ?_, ?_, h.wanted, ?_⟩
  · -- The weight is dropped with the outline, so any weight of the other kind will do.
    rintro topic rule t ⟨rule', heq, hrule⟩ htopic ht w
    refine allows_reweigh ?_ (h.callRules hrule htopic ht one)
    rw [CallRule.outline_changes, CallRule.outline_changes, heq, hc, hbottom]
  · intro topic rule t hrule htopic ht
    refine allows_reweigh ?_ (h.fieldRules hrule htopic ht)
    rw [FieldRule.outline_changes, FieldRule.outline_changes]
  · intro n q l p hcall hfield hincluded
    rw [hscope] at hincluded
    rw [hprogram]
    refine allows_reweigh ?_ (h.nodes hcall hfield hincluded)
    simp only [Solver.nodeChanges, Solver.flowAt, hdirection, hseed, map_append, List.map_flatMap,
      Move.outline_changes, Effect.outline_changes]
  · intro n q l p hcall hfield hincluded
    rw [hscope] at hincluded
    simp only [hprogram, Solver.flowAt, hdirection, hseed]
    exact h.crossings hcall hfield hincluded
  · intro x n e hn he
    refine allows_reweigh ?_ (h.edges hn he)
    simp only [Crossing.changes, List.map_flatMap, Move.outline_changes, hprogram, hscope,
      hdirection]
  · rw [Setting.options_of_outline hc, hprogram]
    exact h.unreachable

end Bound

/-! ### Bounds of runs up to weights -/

namespace RunBound

/-- What the bound allows for some weights. -/
def reweigh (b : RunBound ω) : RunBound ω' where
  graph := b.graph
  query := b.query
  solver N q := (b.solver N q).reweigh
  edge := b.edge
  allocation := b.allocation
  subscriber := b.subscriber

variable {b : RunBound ω} {N : Naming}

theorem Admits.of_reweigh (h : (b.reweigh : RunBound ω').Admits N) : b.Admits N := ⟨h.inj, h.query⟩

theorem Passes.reweigh {c : Setting ω} {c' : Setting ω'} (hc : c'.outline = c.outline)
    {sender : SolverId} {q : Query} {m : Message} (h : b.Passes c N sender q m) :
    (b.reweigh : RunBound ω').Passes c' N sender q m := by
  have hprogram := Setting.program_of_outline hc
  cases m with
  | wanted =>
    simp only [Passes, hprogram, Setting.options_of_outline hc]
    exact h
  | fieldWrite | allocation => exact h
  | aliasAt =>
    simp only [Passes, hprogram]
    refine fun q' hq' => Bound.allows_reweigh ?_ (h q' hq')
    rw [Run.outline_aliasChanges, Run.outline_aliasChanges]
  | storeFound => exact h.imp_right fun hk => ⟨_, rfl, hk⟩
  | storeContext =>
    exact h.imp_left fun hcopies => hcopies.imp_right fun hk => ⟨_, rfl, hk⟩
  | copied =>
    obtain ⟨hsource, htarget, hcall⟩ := h
    exact ⟨hsource.imp_right fun hk => ⟨_, rfl, hk⟩, htarget.imp_right fun hk => ⟨_, rfl, hk⟩, hcall⟩
  | unreachable => trivial

theorem Notifies.reweigh {p : Program} {a : ForwardQuery} {k : Subscriber}
    (h : b.Notifies p N a k) : (b.reweigh : RunBound ω').Notifies p N a k := by
  cases k with
  | resolve => exact h
  | fieldWrite => exact h.imp_right fun hx => Bound.allows_reweigh rfl hx
  | aliases => exact h

/-- A bound of runs closed for some weights is closed for all, up to weights. -/
theorem Closed.reweigh [Weight ω] [Weight ω'] [DecidableEq ω] {c : Setting ω} {c' : Setting ω'}
    (hc : c'.outline = c.outline) (h : b.Closed c) : (b.reweigh : RunBound ω').Closed c' where
  solver_mono hN q := by
    have hle := h.solver_mono hN q
    exact { call := hle.call, field := hle.field, fieldRule := hle.fieldRule,
            message := hle.message, watcher := hle.watcher,
            callRule := fun ⟨rule', heq, hrule⟩ => ⟨rule', heq, hle.callRule hrule⟩ }
  subscriber_mono := h.subscriber_mono
  start hq := by
    obtain ⟨hcall, hfield, hcalls, hfields⟩ := h.start hq
    exact ⟨hcall, hfield, ⟨.reach, rfl, hcalls⟩, hfields⟩
  closed {N q} hN hq g s hedge hdirection hseed := by
    have hclosed := h.closed (N := N) (s := .start ⟨0⟩ q.direction q.node) hN.of_reweigh hq hedge
      rfl rfl
    exact hclosed.reweigh hc hdirection hseed
  message hN hq hm hlegit := (h.message hN.of_reweigh hq hm hlegit).reweigh hc
  notice hN hq hk hlegit ha := by
    rw [Setting.program_of_outline hc]
    exact (h.notice hN.of_reweigh hq hk hlegit ha).reweigh

end RunBound

end DemandAlias
