import DemandAlias.Json.Basic
import DemandAlias.Program.Statement
import DemandAlias.Text.Pattern.Parser

/-!
# Scopes

A scope says which methods the analysis leaves alone: it never enters them and never
looks at what their statements do. A scope is described by patterns of the names of
excluded methods.
-/

namespace DemandAlias

/-- Which methods the analysis leaves alone. -/
structure Scope where
  excludes : MethodName → Bool

namespace Scope

/-- The scope that leaves no method alone. -/
def everything : Scope := ⟨fun _ => false⟩

/-- The scope that leaves alone the methods in whose names one of the patterns occurs. -/
def ofPatterns (patterns : List Text.Pattern) : Scope :=
  ⟨fun m => patterns.any fun p => p.occursIn m.text⟩

/-- The scope written by patterns, if they can be read. -/
def ofTexts? (patterns : List String) : Option Scope :=
  (patterns.mapM Text.Pattern.parse?).map ofPatterns

/-- The patterns of a scope description, which may be left out. -/
def patternsOfJson? (value : Json) : Option (List String) := do
  let [patterns] ← Json.fields? ["exclude"] value | none
  Json.default? [] (Json.list? Json.str?) patterns

end Scope

end DemandAlias
