import DemandAlias.Description.Codec
import DemandAlias.Description.Resolve
import DemandAlias.Json.Parser
import DemandAlias.Query
import DemandAlias.Scope

/-!
# Errors

What may be wrong with what the analysis is given, and the one thing it may find
wrong itself: reaching a method that was said to be unreachable. Running out of
steps or time is no error. Programs and scopes are read from text here.
-/

namespace DemandAlias

/-- A reason to answer nothing. -/
inductive Error where
  | malformedQuery (fault : QueryFault)
  /-- A node was reached in a method said to be unreachable. -/
  | unsound (node : Node)
  | malformedProgram (fault : ProgramFault)
  /-- A pattern of a scope cannot be read. -/
  | invalidScope
  | malformedJson
  deriving DecidableEq, Inhabited

/-- The error in words. -/
def Error.message : Error → String
  | .malformedQuery fault => "Malformed query: " ++ fault.message
  | .unsound node =>
    "Unsound result: reached " ++ node.render ++ " in unreachable method " ++ node.stmt.method.text
  | .malformedProgram fault => "Malformed program: " ++ fault.message
  | .invalidScope => "Invalid scope"
  | .malformedJson => "Malformed JSON"

/-- The program a description describes. -/
def Description.program (d : Description) : Except Error Program :=
  d.resolve.mapError .malformedProgram

/-- The description written by a JSON value. -/
def Description.ofJson (value : Json) : Except Error Description :=
  match Description.ofJson? value with
  | some d => .ok d
  | none => .error .malformedJson

/-- The description written by a text. -/
def Description.parse (text : String) : Except Error Description :=
  match Json.parse? text with
  | some value => Description.ofJson value
  | none => .error .malformedJson

/-- The scope written by a JSON value. -/
def Scope.ofJson (value : Json) : Except Error Scope :=
  match Scope.patternsOfJson? value with
  | none => .error .malformedJson
  | some patterns =>
    match Scope.ofTexts? patterns with
    | some scope => .ok scope
    | none => .error .invalidScope

/-- The scope written by a text. -/
def Scope.parse (text : String) : Except Error Scope :=
  match Json.parse? text with
  | some value => Scope.ofJson value
  | none => .error .malformedJson

/-- The forward query for the value `stmt` creates in `var`. -/
def ForwardQuery.ofStatement (stmt : Statement) (var : Local) : Except Error ForwardQuery :=
  (ForwardQuery.of stmt var).mapError .malformedQuery

/-- The backward query for the argument at place `index` of the call `stmt`. -/
def BackwardQuery.ofCall (stmt : Statement) (index : Nat) : Except Error BackwardQuery :=
  (BackwardQuery.ofArgument stmt index).mapError .malformedQuery

end DemandAlias
