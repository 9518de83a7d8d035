import DemandAlias.Program.Statement

/-!
# Program descriptions

A program as it is written down, before names are resolved: classes, methods with
their instructions, and the names of methods said to be unreachable. Locals,
methods and classes are plain text here. A description may also be put together
step by step, a method at a time and an instruction at a time.
-/

namespace DemandAlias

/-! ### Instructions -/

/-- An instruction of a method. Jumps name the place of the instruction they go to. -/
inductive Instruction where
  /-- A fresh object of a class. -/
  | new (lhs className : String)
  | const (lhs : String) (value : Constant)
  | copy (lhs rhs : String)
  | load (lhs base field : String)
  | store (base field rhs : String)
  | call (lhs : Option String) (method : String) (args : List (Operand String))
  | virtualCall (lhs : Option String) (base name : String) (args : List (Operand String))
  | branch (lhs : String) (comparison : Comparison) (rhs : Operand String) (target : Nat)
  | jump (target : Nat)
  | ret (value : Option (Operand String))
  | nop
  deriving DecidableEq, Inhabited

namespace Instruction

/-- The local an instruction writes. -/
def defined? : Instruction → Option String
  | .new lhs _ | .const lhs _ | .copy lhs _ | .load lhs _ _ => some lhs
  | .call lhs _ _ | .virtualCall lhs _ _ _ => lhs
  | _ => none

/-- Whether control never goes on to the instruction below. -/
def isExit : Instruction → Bool
  | .ret _ | .jump _ => true
  | _ => false

/-- The instruction with its jump, if it has one, going to `target`. -/
def withTarget (target : Nat) : Instruction → Instruction
  | .branch lhs comparison rhs _ => .branch lhs comparison rhs target
  | .jump _ => .jump target
  | instruction => instruction

end Instruction

/-! ### Declarations -/

/-- A class and the class it extends, if any. -/
structure ClassDecl where
  name : String
  superclass : Option String := none
  deriving DecidableEq, Inhabited

/-- A method: its name, the name of its receiver if it has one, its parameters and its body. -/
structure MethodDecl where
  name : String
  receiver : Option String := none
  params : List String := []
  body : List Instruction := []
  deriving DecidableEq, Inhabited

namespace MethodDecl

/-- Whether the last instruction leaves the method or jumps, so that control never
    falls off the end. -/
def endsInExit (m : MethodDecl) : Bool :=
  match m.body.getLast? with
  | some instruction => instruction.isExit
  | none => false

/-- How many statements the method has once falling off the end is a return. -/
def length (m : MethodDecl) : Nat := if m.endsInExit then m.body.length else m.body.length + 1

/-- The method with one more instruction, whose place is the old number of instructions. -/
def append (m : MethodDecl) (instruction : Instruction) : MethodDecl :=
  { m with body := m.body ++ [instruction] }

/-- The method with the jump at a place, if there is one, going to `target`. -/
def setTarget (m : MethodDecl) (place target : Nat) : MethodDecl :=
  { m with body := m.body.modify place (Instruction.withTarget target) }

end MethodDecl

/-- The description of a program. -/
structure Description where
  classes : List ClassDecl := []
  methods : List MethodDecl := []
  unreachable : List String := []
  deriving DecidableEq, Inhabited

namespace Description

/-- The description with one more class. -/
def addClass (d : Description) (c : ClassDecl) : Description :=
  { d with classes := d.classes ++ [c] }

/-- The description with one more method, still empty. -/
def addMethod (d : Description) (name : String) : Description :=
  { d with methods := d.methods ++ [{ name }] }

/-- The description with one more method said to be unreachable. -/
def addUnreachable (d : Description) (name : String) : Description :=
  { d with unreachable := d.unreachable ++ [name] }

/-- The method added last. -/
def lastMethod? (d : Description) : Option MethodDecl := d.methods.getLast?

/-- The description with the method added last changed by `f`. -/
def modifyLastMethod (d : Description) (f : MethodDecl → MethodDecl) : Description :=
  { d with methods := d.methods.modify (d.methods.length - 1) f }

end Description

end DemandAlias
