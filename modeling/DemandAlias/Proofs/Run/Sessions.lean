import DemandAlias.Proofs.Termination

/-!
# Sessions and their runs

A run comes up in answering a query if it is begun and goes on for some ticks (`Session.Runs`).
What the ticks maintain holds of it if it holds at the beginning (`Session.Runs.maintains`). A
session comes up if it is started and then keeps the call graphs of such runs (`Session.Arises`),
which may have been stopped at any time. If the queries are about the program, only edges of the
program are found (`Session.Arises.hasEdge`).
-/

namespace DemandAlias.Session

variable {ω : Type} [Weight ω] [DecidableEq ω]

/-- The run comes up in answering the query. -/
inductive Runs (session : Session ω) (q : Query) : Run ω → Prop
  | begin : Runs session q (session.begin q)
  | tick {r : Run ω} (elapsed : Nat) (h : Runs session q r) :
    Runs session q (r.tick session.setting elapsed)

/-- The session comes up with this setting. Queries about the program were asked, one after the
    other, and any of their runs may have been left before its end. -/
inductive Arises (c : Setting ω) : Session ω → Prop
  | start : Arises c (.start c)
  | keep {session : Session ω} {q : Query} {r : Run ω} (h : Arises c session)
      (hq : q.node.stmt ∈ c.program.statements) (hr : session.Runs q r) : Arises c (session.keep r)

variable {c : Setting ω} {session : Session ω} {q : Query} {r : Run ω}

theorem Runs.advance (h : session.Runs q r) (elapsed n : Nat) :
    session.Runs q (r.advance session.setting elapsed n) := by
  induction n generalizing r with
  | zero => exact h
  | succ n ih =>
    rw [Run.advance]
    split
    · exact ih (h.tick elapsed)
    · exact h

theorem Arises.setting_eq (h : Arises c session) : session.setting = c := by
  induction h with
  | start => rfl
  | keep _ _ _ ih => exact ih

theorem Arises.answer (h : Arises c session) (hq : q.node.stmt ∈ c.program.statements) :
    Arises c (session.answer q) := by
  rw [answer_eq]
  exact h.keep hq (Runs.begin.advance 0 Run.ample)

/-- A run can be listed after any number of ticks. -/
theorem exists_runs (c : Setting ω) (q : Query) (n : Nat) : ∃ r, (start c).Runs q r ∧
    r.ListedBy ((Run.Listing.begin c (Run.Listing.start c).edges q).advance c 0 n) :=
  ⟨_, Runs.begin.advance 0 n, (Run.listedBy_begin (Run.listedBy_start c) q).advance 0 n⟩

variable [ZeroFree ω]

theorem Runs.orderly (h : session.Runs q r) (hc : session.setting.weighing.ZeroFree) :
    r.Orderly session.setting := by
  induction h with
  | begin => exact (Run.orderly_begin session q).1
  | tick elapsed _ ih => exact (ih.tick hc elapsed).orderly

/-- What is maintained and holds when a run begins holds as long as it goes on. -/
theorem Runs.maintains {P : Run ω → Prop} (h : session.Runs q r)
    (hP : Run.Maintained session.setting P) (hc : session.setting.weighing.ZeroFree)
    (hbegin : P (session.begin q)) : r.Orderly session.setting ∧ P r := by
  refine ⟨h.orderly hc, ?_⟩
  induction h with
  | begin => exact hbegin
  | tick elapsed h ih => exact hP.tick (h.orderly hc) ih elapsed

/-- A run stays within a closed bound that allows what it begins with. -/
theorem Runs.within {b : RunBound ω} (h : session.Runs q r)
    (hc : session.setting.weighing.ZeroFree) (hb : b.Closed session.setting)
    (hgraph : b.graph = session.graph)
    (hedge : ∀ {x : Crossing} {e}, e ∈ x.edges session.graph → b.edge x e) (hq : b.query q)
    (haliases : ∀ N, b.subscriber N q .aliases) : r.Within b := by
  have hbegin := Run.within_begin session hb.toPassing hgraph hedge hq fun _ N _ => haliases N
  exact (h.maintains (Run.maintained_within hb hc) hc hbegin).2

/-- The run of a query speaks of what the program and the query speak of. -/
theorem Runs.within_asking {p : Program} (h : session.Runs q r)
    (hprogram : session.setting.program = p) (hp : p.IsLaidOut)
    (hc : session.setting.weighing.ZeroFree)
    (hgraph : ∀ {x : Crossing} {e}, e ∈ x.edges session.graph → p.HasEdge e)
    (hq : q.node.stmt ∈ p.statements) :
    r.Within ((Vocabulary.asking p q.node.var).bound session.graph) :=
  h.within hc (Vocabulary.closed_bound (hprogram ▸ hp.spans) session.graph) rfl hgraph
    ⟨hq, mem_cons_self⟩ fun _ => trivial

/-- Only edges of the program are found. -/
theorem Arises.hasEdge (h : Arises c session) (hp : c.program.IsLaidOut)
    (hc : c.weighing.ZeroFree) {x : Crossing} {e : CallEdge} (he : e ∈ x.edges session.graph) :
    c.program.HasEdge e := by
  induction h generalizing x e with
  | start => exact (builds_start hp.spans).edges he
  | keep h hq hr ih =>
    obtain rfl := h.setting_eq
    exact (hr.within_asking rfl hp hc ih hq).edge he

end DemandAlias.Session
