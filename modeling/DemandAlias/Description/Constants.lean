import DemandAlias.Description.Basic

/-!
# Constants a description makes sure of

A local holds a constant wherever it is used if its only definition assigns that
constant, or calls a method that always returns it. A method always returns a
constant if every return of it does and control never falls off its end. The two
notions rest on each other, so the methods are found in rounds, each building on
the methods found before; as every round but the last finds a method, there are no
more rounds than methods.
-/

namespace DemandAlias

/-- Methods, by name, with the constants they always return. -/
abbrev ConstantResults := List (String × Constant)

namespace MethodDecl

/-- The constant the local `l` holds wherever it is used, if it has a single
    definition, by a constant or by a call of a method in `known`. Parameters and
    the receiver hold whatever they are passed. -/
def constantOf? (m : MethodDecl) (known : ConstantResults) (l : String) : Option Constant :=
  if m.params.contains l || m.receiver == some l then none
  else match m.body.filter fun instruction => instruction.defined? == some l with
    | [.const _ value] => some value
    | [.call _ method _] => known.lookup method
    | _ => none

/-- The constant an operand is known to be. -/
def constantOperand? (m : MethodDecl) (known : ConstantResults) :
    Operand String → Option Constant
  | .const c => some c
  | .var l => m.constantOf? known l

/-- For every return of the method, the constant it is known to return. -/
def returned (m : MethodDecl) (known : ConstantResults) : List (Option Constant) :=
  m.body.filterMap fun
    | .ret value => some (value.bind (m.constantOperand? known))
    | _ => none

/-- The constant the method always returns. -/
def constantResult? (m : MethodDecl) (known : ConstantResults) : Option Constant :=
  if m.endsInExit then
    match m.returned known with
    | some c :: others => if others.all (· == some c) then some c else none
    | _ => none
  else none

end MethodDecl

namespace ConstantResults

/-- The methods found in one more round. -/
def found (methods : List MethodDecl) (known : ConstantResults) : ConstantResults :=
  methods.filterMap fun m =>
    if (known.lookup m.name).isSome then none
    else (m.constantResult? known).map fun c => (m.name, c)

/-- The methods found in at most `n` rounds after `known`. -/
def afterRounds (methods : List MethodDecl) : Nat → ConstantResults → ConstantResults
  | 0, known => known
  | n + 1, known =>
    match found methods known with
    | [] => known
    | new => afterRounds methods n (known ++ new)

/-- The methods that always return the same constant. -/
def ofMethods (methods : List MethodDecl) : ConstantResults := afterRounds methods methods.length []

end ConstantResults

end DemandAlias
