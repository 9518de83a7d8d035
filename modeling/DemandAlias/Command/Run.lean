import DemandAlias.Command.Report

/-!
# Running the command

The command reads the descriptions of the scope and of the program, answers a query
for each allocation or for the first argument of each call of `queryFor`, and reports
the answers. It fails before anything is reported if one of the queries cannot be
answered.

What depends on the world, that is files and time, is left to a *host*.
-/

namespace DemandAlias.Command

/-- What the command needs of the world. -/
structure Host (m : Type → Type) where
  /-- The text of a file, or why it cannot be read. -/
  read : String → m (Except FileFault String)
  /-- Lets a run go on to its end and tells how many milliseconds it took. -/
  finish : {ω : Type} → [Weight ω] → [DecidableEq ω] → Setting ω → Run ω → m (Run ω × Nat)

/-- What becomes of a command. -/
inductive Outcome where
  /-- The command line cannot be read. -/
  | misused
  /-- A report, and why it is not accepted. -/
  | reported (lines : List String) (failure : Option Failure)
  deriving Inhabited

variable {m : Type → Type} [Monad m]

/-! ### Queries -/

variable {ω : Type} [Weight ω] [DecidableEq ω]

/-- Answers a list of queries, each with the call graph the one before leaves.
    `answer` gives the answer by the run of a query. -/
def solveAll {κ ρ : Type} (host : Host m) (start : Session ω → κ → Run ω)
    (answer : Session ω → κ → Run ω → Except Error ρ) (query : κ → Query) :
    Session ω → List κ → m (Except Failure (List (ρ × Nat) × Session ω))
  | session, [] => pure (.ok ([], session))
  | session, q :: qs => do
    let (r, elapsed) ← host.finish session.setting (start session q)
    match answer session q r with
    | .error cause => pure (.error (.unsolved (query q) cause))
    | .ok result =>
      let rest ← solveAll host start answer query (session.keep r) qs
      pure (rest.map fun (results, session) => ((result, elapsed) :: results, session))

/-- The forward queries for all allocations. -/
def forwardQueries (p : Program) : Except Failure (List ForwardQuery) :=
  (p.allocationSites.mapM fun (stmt, var) => ForwardQuery.ofStatement stmt var).mapError
    .badAllocation

/-- The backward queries for the first arguments of the calls that ask for it. -/
def backwardQueries (p : Program) : Except Failure (List BackwardQuery) :=
  ((p.callsNamed "queryFor").mapM fun stmt => BackwardQuery.ofCall stmt 0).mapError .badCall

/-- Answers the queries and gives the lines of the report, and whether a query timed out. -/
def analyse (host : Host m) (a : Arguments) (setting : Setting ω)
    (trails : ForwardResult ω → List String) : m (Except Failure (List String × Bool)) := do
  let session := Session.start setting
  if a.has .forward then
    match forwardQueries setting.program with
    | .error failure => pure (.error failure)
    | .ok qs =>
      let solved ← solveAll host Session.beginForward Session.endForward .forward session qs
      pure <| solved.map fun (results, session) =>
        (results.flatMap (fun (r, elapsed) => forwardLines a trails r elapsed)
            ++ graphLines a session.graph,
          results.any fun (r, _) => r.timedOut)
  else
    match backwardQueries setting.program with
    | .error failure => pure (.error failure)
    | .ok qs =>
      let solved ← solveAll host Session.beginBackward Session.endBackward .backward session qs
      pure <| solved.map fun (results, session) =>
        (results.flatMap (fun (r, elapsed) => backwardLines a r elapsed)
            ++ graphLines a session.graph,
          results.any fun (r, _) => r.timedOut)

/-! ### The command -/

/-- The options a command line asks for. -/
def Arguments.options (a : Arguments) : Options where
  timeout := if a.timeout = 0 then none else some a.timeout
  maxSteps := a.maxSteps
  onTheFly := a.has .onTheFly
  reportTrails := a.has .path || a.has .prune
  prune := a.has .prune
  checkUnreachable := a.check != .nothing
  reportAliases := !a.has .forward

/-- Reads the scope. -/
def readScope (host : Host m) : Option String → m (Except Failure Scope)
  | none => pure (.ok .everything)
  | some file => do
    match ← host.read file with
    | .error cause => pure (.error (.unreadableScope cause))
    | .ok text => pure ((Scope.parse text).mapError .badScope)

/-- Reads the program. -/
def readProgram (host : Host m) (file : String) : m (Except Failure Program) := do
  match ← host.read file with
  | .error cause => pure (.error (.unreadableProgram file cause))
  | .ok text => pure ((Description.parse text >>= Description.program).mapError .badProgram)

/-- Does what a command line asks for. -/
def Arguments.run (host : Host m) (a : Arguments) : m (Except Failure (List String × Bool)) := do
  match ← readScope host a.scope with
  | .error failure => pure (.error failure)
  | .ok scope =>
    match ← readProgram host a.program with
    | .error failure => pure (.error failure)
    | .ok program =>
      let options := a.options
      if options.reportTrails then
        analyse host a ⟨program, scope, .trail, options⟩ trailLines
      else analyse host a ⟨program, scope, .reach, options⟩ fun _ => []

/-- Runs a command line. -/
def run (host : Host m) (args : List String) : m Outcome := do
  match Arguments.parse? args with
  | none => pure .misused
  | some a =>
    match ← a.run host with
    | .error failure => pure (.reported [] (some failure))
    | .ok (lines, timedOut) =>
      pure (.reported lines
        (if a.check = .strict ∧ timedOut then some .timedOut else none))

end DemandAlias.Command
