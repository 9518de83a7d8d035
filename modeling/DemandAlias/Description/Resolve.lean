import DemandAlias.Description.Constants
import DemandAlias.Program.Basic

/-!
# From descriptions to programs

Resolving a description gives every local its method, lays out the control flow of
every body, and turns calls of `put` and `get` on maps into stores and loads of the
field of the key. A description is refused for the first fault found, in the order
of declaration: classes declared twice, then unknown superclasses, then the methods
one after the other.
-/

namespace DemandAlias

/-! ### Faults -/

/-- What is wrong with a description. -/
inductive ProgramFault where
  | duplicateClass (name : String)
  | unknownSuperclass (name superclass : String)
  | unqualifiedMethod (name : String)
  | unqualifiedCallee (method callee : String)
  | targetOutOfBounds (method : String) (target : Nat)
  | duplicateMethod (name : String)
  deriving DecidableEq, Inhabited

/-- The fault in words. -/
def ProgramFault.message : ProgramFault → String
  | .duplicateClass name => "duplicate class " ++ name
  | .unknownSuperclass name superclass =>
    "class " ++ name ++ " extends unknown class " ++ superclass
  | .unqualifiedMethod name => "method " ++ name ++ " is not of the form Class.method"
  | .unqualifiedCallee method callee =>
    method ++ ": callee " ++ callee ++ " is not of the form Class.method"
  | .targetOutOfBounds method target =>
    method ++ ": jump target " ++ toString target ++ " out of bounds"
  | .duplicateMethod name => "duplicate method " ++ name

/-! ### Instructions -/

/-- The field of this name; `[]` names the elements of an array. -/
def Field.ofName (name : String) : Field :=
  if name = "[]" then .element else .named name

/-- The field of a map under the key `c`, if it is known; the null key may be any. -/
def Field.ofKey : Option Constant → Field
  | some (.int value) => .key (toString value)
  | some (.str text) => .key text
  | some .null | none => .anyKey

/-- What the instructions of a method are resolved with. -/
structure MethodContext where
  /-- The method. -/
  decl : MethodDecl
  /-- The constants methods always return. -/
  results : ConstantResults
  /-- Whether a virtual call of `put` writes to a map: no method is called so. -/
  putWritesMap : Bool
  /-- Whether a virtual call of `get` reads from a map: no method is called so. -/
  getReadsMap : Bool

namespace MethodContext

/-- The name of the method. -/
def name (ctx : MethodContext) : MethodName := ⟨ctx.decl.name⟩

/-- The local of the method of this name. -/
def localNamed (ctx : MethodContext) (name : String) : Local := ⟨ctx.name, name⟩

/-- An operand of the method. -/
def operand (ctx : MethodContext) (o : Operand String) : Operand Local := o.map ctx.localNamed

/-- The field of a map under the key `o`. -/
def keyField (ctx : MethodContext) (o : Operand String) : Field :=
  Field.ofKey (ctx.decl.constantOperand? ctx.results o)

/-- A call that keeps what it returns in `lhs`, if given. -/
def callAction (ctx : MethodContext) (lhs : Option String) (callee : Callee)
    (args : List (Operand String)) : Action :=
  let c : Call := { callee, args := args.map ctx.operand }
  match lhs with
  | some lhs => .assign (ctx.localNamed lhs) (.call c)
  | none => .call c

/-- A virtual call: a store or a load if it is a map operation. -/
def virtualAction (ctx : MethodContext) (lhs : Option String) (base name : String)
    (args : List (Operand String)) : Action :=
  let call := ctx.callAction lhs (.virtual (ctx.localNamed base) name) args
  if name = "put" ∧ ctx.putWritesMap then
    match args with
    | [key, .var value] =>
      .store (ctx.localNamed base) (ctx.keyField key) (ctx.localNamed value)
    | _ => call
  else if name = "get" ∧ ctx.getReadsMap then
    match lhs, args with
    | some lhs, [key] =>
      .assign (ctx.localNamed lhs) (.load (ctx.localNamed base) (ctx.keyField key))
    | none, [_] => .nop
    | _, _ => call
  else call

/-- A place to jump to, which must be one of the method. -/
def checkTarget (ctx : MethodContext) (target : Nat) : Except ProgramFault Nat :=
  if target < ctx.decl.length then .ok target
  else .error (.targetOutOfBounds ctx.decl.name target)

/-- What an instruction does. -/
def action (ctx : MethodContext) : Instruction → Except ProgramFault Action
  | .new lhs className => .ok (.assign (ctx.localNamed lhs) (.alloc ⟨className⟩))
  | .const lhs value => .ok (.assign (ctx.localNamed lhs) (.const value))
  | .copy lhs rhs => .ok (.assign (ctx.localNamed lhs) (.copy (ctx.localNamed rhs)))
  | .load lhs base field =>
    .ok (.assign (ctx.localNamed lhs) (.load (ctx.localNamed base) (Field.ofName field)))
  | .store base field rhs =>
    .ok (.store (ctx.localNamed base) (Field.ofName field) (ctx.localNamed rhs))
  | .call lhs method args =>
    if isQualified method then .ok (ctx.callAction lhs (.static ⟨method⟩) args)
    else .error (.unqualifiedCallee ctx.decl.name method)
  | .virtualCall lhs base name args => .ok (ctx.virtualAction lhs base name args)
  | .branch lhs comparison rhs target => do
    let target ← ctx.checkTarget target
    .ok (.branch { lhs := ctx.localNamed lhs, comparison, rhs := ctx.operand rhs } target)
  | .jump target => do
    let target ← ctx.checkTarget target
    .ok (.jump target)
  | .ret value => .ok (.ret (value.map ctx.operand))
  | .nop => .ok .nop

/-- The method. Falling off the end returns. -/
def method (ctx : MethodContext) : Except ProgramFault Method := do
  let actions ← ctx.decl.body.mapM ctx.action
  let actions := if ctx.decl.endsInExit then actions else actions ++ [.ret none]
  .ok (Method.ofActions ctx.name (ctx.decl.receiver.map ctx.localNamed)
    (ctx.decl.params.map ctx.localNamed) actions)

end MethodContext

/-! ### Programs -/

namespace Description

/-- The first name that occurs earlier in the list, or in `seen`. -/
def firstRepeated? (seen : List String) : List String → Option String
  | [] => none
  | name :: names => if seen.contains name then some name else firstRepeated? (name :: seen) names

/-- The first class that extends a class not among `names`, with that class. -/
def firstUnknownSuperclass? (names : List String) : List ClassDecl → Option (String × String)
  | [] => none
  | c :: classes =>
    match c.superclass with
    | some superclass =>
      if names.contains superclass then firstUnknownSuperclass? names classes
      else some (c.name, superclass)
    | none => firstUnknownSuperclass? names classes

/-- The classes, if each is declared once and extends a declared one. -/
def resolveClasses (classes : List ClassDecl) : Except ProgramFault (List Class) :=
  let names := classes.map ClassDecl.name
  match firstRepeated? [] names, firstUnknownSuperclass? names classes with
  | some name, _ => .error (.duplicateClass name)
  | none, some (name, superclass) => .error (.unknownSuperclass name superclass)
  | none, none =>
    .ok (classes.map fun c => { name := ⟨c.name⟩, superclass := c.superclass.map ClassName.mk })

/-- Whether a method of this short name is declared. -/
def declaresShort (d : Description) (name : String) : Bool :=
  d.methods.any fun m => afterLastDot? m.name == some name

/-- What the methods of a description are resolved with. -/
def context (d : Description) (results : ConstantResults) (decl : MethodDecl) : MethodContext where
  decl
  results
  putWritesMap := !d.declaresShort "put"
  getReadsMap := !d.declaresShort "get"

/-- The methods, resolved one after the other after those named in `seen`. -/
def resolveMethods (context : MethodDecl → MethodContext) (seen : List String) :
    List MethodDecl → Except ProgramFault (List Method)
  | [] => .ok []
  | decl :: decls =>
    if !isQualified decl.name then .error (.unqualifiedMethod decl.name)
    else do
      let method ← (context decl).method
      if seen.contains decl.name then .error (.duplicateMethod decl.name)
      else do
        let methods ← resolveMethods context (decl.name :: seen) decls
        .ok (method :: methods)

/-- The program a description describes. -/
def resolve (d : Description) : Except ProgramFault Program := do
  let classes ← resolveClasses d.classes
  let methods ← resolveMethods (d.context (ConstantResults.ofMethods d.methods)) [] d.methods
  .ok {
    classes := sortedBy Class.name classes
    methods := sortedBy Method.name methods
    unreachable := sortedUnique (d.unreachable.map MethodName.mk) }

end Description

end DemandAlias
