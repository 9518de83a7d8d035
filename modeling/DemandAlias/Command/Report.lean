import DemandAlias.Analysis.Session
import DemandAlias.Command.Arguments
import DemandAlias.Command.File

/-!
# Reports

The lines that the answers to the queries are reported in, and those that tell why
there is no answer.
-/

namespace DemandAlias.Command

/-! ### Failures -/

/-- Why there is no report, or why the report is not accepted. -/
inductive Failure where
  /-- The description of the scope cannot be read from its file. -/
  | unreadableScope (cause : FileFault)
  | badScope (cause : Error)
  /-- The description of the program cannot be read from its file. -/
  | unreadableProgram (file : String) (cause : FileFault)
  | badProgram (cause : Error)
  | badAllocation (cause : Error)
  | badCall (cause : Error)
  | unsolved (q : Query) (cause : Error)
  | timedOut
  deriving Inhabited

namespace Failure

/-- What a failure says, and what it says of its cause. -/
def messages : Failure → List String
  | .unreadableScope cause => ["Couldn't read analysis scope", cause.message]
  | .badScope cause => ["Couldn't construct analysis scope", cause.message]
  | .unreadableProgram file cause => ["Couldn't read program at " ++ file, cause.message]
  | .badProgram cause => ["Malformed program", cause.message]
  | .badAllocation cause => ["Bad allocation site", cause.message]
  | .badCall cause => ["Bad call to queryFor", cause.message]
  | .unsolved q cause => ["Couldn't solve " ++ q.render, cause.message]
  | .timedOut => ["Some queries timed out!"]

/-- The lines that tell of a failure. -/
def lines (f : Failure) : List String :=
  match f.messages with
  | [] => []
  | message :: causes => ("Error: " ++ message) :: causes

end Failure

/-! ### Answers -/

/-- A line that belongs to the one above it. -/
def indented (line : String) : String := "  " ++ line

/-- What is said about the run behind an answer. -/
def runLines (a : Arguments) (timedOut : Bool) (stats : Stats) (elapsed : Nat) : List String :=
  (if timedOut then [indented "timed out"] else [])
    ++ if a.has .stats then [indented (stats.render elapsed)] else []

/-- The lines of the answer to a backward query. -/
def backwardLines (a : Arguments) (r : BackwardResult) (elapsed : Nat) : List String :=
  let answer :=
    r.query.render
      :: r.allocations.map (fun q => indented ("allocation " ++ q.node.render))
      ++ r.aliases.map (fun path => indented ("alias " ++ path.render))
  (if a.has .quiet then [] else answer) ++ runLines a r.timedOut r.stats elapsed

/-- The lines of the trails to the nodes of an answer. -/
def trailLines (r : ForwardResult Trail) : List String :=
  r.nodes.flatMap fun n =>
    match r.trail? n with
    | some elements =>
      indented ("path to " ++ n.render)
        :: elements.map fun e => indented (indented e.render)
    | none => []

/-- The lines of the answer to a forward query; `trails` are those of its trails. -/
def forwardLines {ω : Type} (a : Arguments) (trails : ForwardResult ω → List String)
    (r : ForwardResult ω) (elapsed : Nat) : List String :=
  let answer :=
    r.query.render
      :: r.nodes.map (fun n => indented n.render)
      ++ r.invoked.map (fun m => indented ("invokes " ++ m.text))
      ++ (if r.hasRecursion then [indented "call recursion"] else [])
      ++ (if r.hasFieldLoop then [indented "field loop"] else [])
      ++ trails r
  (if a.has .quiet then [] else answer) ++ runLines a r.timedOut r.stats elapsed

/-- The line about the call graph at the end of a report. -/
def graphLines (a : Arguments) (g : CallGraph) : List String :=
  if a.has .stats then [s!"call graph edges: {g.size}"] else []

end DemandAlias.Command
