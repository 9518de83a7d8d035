import DemandAlias.Program.Statement

/-!
# Programs

A program is a class hierarchy together with the bodies of its methods. A method
knows its control flow: which statements may run after and before each of its
statements. Classes, methods and the methods declared unreachable are listed in
the order of their names, so programs that differ only in the order of
declaration are equal.
-/

namespace DemandAlias

/-! ### Control flow -/

/-- The places of the statements that may run next: none after a return, the target of a jump, both
    ways of a branch (once if they meet), and the next statement otherwise. -/
def Statement.targets (s : Statement) : List Nat :=
  match s.action with
  | .ret _ => []
  | .jump target => [target]
  | .branch _ target => if target = s.index + 1 then [target] else [s.index + 1, target]
  | _ => [s.index + 1]

/-- A class and the class it extends. -/
structure Class where
  name : ClassName
  superclass : Option ClassName
  deriving DecidableEq, Inhabited

/-- A method: its receiver and parameters, its body, and for each place of the
    body the statements that may run after and before the one there. -/
structure Method where
  name : MethodName
  receiver : Option Local
  params : List Local
  body : Array Statement
  succs : Array (List Statement)
  preds : Array (List Statement)
  deriving DecidableEq, Inhabited

namespace Method

/-- The method whose body does `actions` one after the other. -/
def ofActions (name : MethodName) (receiver : Option Local) (params : List Local)
    (actions : List Action) : Method :=
  let statements := actions.zipIdx.map fun (action, index) => { method := name, index, action }
  let body := statements.toArray
  { name, receiver, params, body
    succs := body.map fun s => s.targets.filterMap fun t => body[t]?
    preds := (List.range body.size).toArray.map fun t =>
      statements.filter fun s => s.targets.contains t }

/-- The first statement. -/
def start? (m : Method) : Option Statement := m.body[0]?

/-- Whether `s` is the first statement. -/
def isStart (m : Method) (s : Statement) : Bool := s.index == 0 && s.method == m.name

/-- The statements that leave the method, in the order of the body. -/
def exits (m : Method) : List Statement := m.body.toList.filter Statement.isReturn

/-- The statements that may run right after the one at the place of `s`. -/
def successors (m : Method) (s : Statement) : List Statement := m.succs.getD s.index []

/-- The statements that may run right before the one at the place of `s`. -/
def predecessors (m : Method) (s : Statement) : List Statement := m.preds.getD s.index []

/-- The place of `l` among the parameters, the first one if there are several. -/
def paramIndex? (m : Method) (l : Local) : Option Nat := m.params.idxOf? l

/-- Whether `l` is the receiver. -/
def isReceiver (m : Method) (l : Local) : Bool := m.receiver == some l

end Method

/-! ### Programs -/

/-- A program. -/
structure Program where
  /-- The classes, by name. -/
  classes : List Class
  /-- The methods, by name. -/
  methods : List Method
  /-- The methods no execution is said to reach, by name. -/
  unreachable : List MethodName
  deriving DecidableEq, Inhabited

namespace Program

/-- The method of this name. -/
def method? (p : Program) (name : MethodName) : Option Method :=
  p.methods.find? fun m => m.name == name

/-- Whether there is a method of this name. -/
def defines (p : Program) (name : MethodName) : Bool := p.methods.any fun m => m.name == name

/-- The class of this name, if it is declared. -/
def class? (p : Program) (name : ClassName) : Option Class :=
  p.classes.find? fun c => c.name == name

/-- The class a class is declared to extend. -/
def superclass? (p : Program) (name : ClassName) : Option ClassName :=
  (p.class? name).bind Class.superclass

/-- The statements that may run right after `s`. -/
def successors (p : Program) (s : Statement) : List Statement :=
  match p.method? s.method with
  | some m => m.successors s
  | none => []

/-- The statements that may run right before `s`. -/
def predecessors (p : Program) (s : Statement) : List Statement :=
  match p.method? s.method with
  | some m => m.predecessors s
  | none => []

/-- Whether no execution is said to reach the method. -/
def isUnreachable (p : Program) (name : MethodName) : Bool := p.unreachable.contains name

/-- The statements of all methods, in their order. -/
def statements (p : Program) : List Statement := p.methods.flatMap fun m => m.body.toList

/-- The calls of all methods, in the order of statements. -/
def invocations (p : Program) : List Statement := p.statements.filter Statement.isCall

/-- The calls of methods of this short name. -/
def callsNamed (p : Program) (name : String) : List Statement :=
  p.statements.filter fun s =>
    match s.call? with
    | some c => c.methodName == name
    | none => false

/-- The statements that create a value, each with the local it creates it in. -/
def allocationSites (p : Program) : List (Statement × Local) :=
  p.statements.filterMap fun s =>
    match s.action with
    | .assign target value => if value.creates then some (s, target) else none
    | _ => none

/-- The method `name` of class `c` or else of the nearest of its `n - 1` next
    superclasses that has one. -/
def dispatchWithin (p : Program) (name : String) : Nat → ClassName → Option MethodName
  | 0, _ => none
  | n + 1, c =>
    if p.defines (c.method name) then some (c.method name)
    else (p.superclass? c).bind (p.dispatchWithin name n)

/-- The method that runs when `name` is called on an object of class `c`: that of
    the class itself, or else that of its nearest superclass. No chain of
    superclasses meets more classes than are declared, besides the first. -/
def dispatch (p : Program) (c : ClassName) (name : String) : Option MethodName :=
  p.dispatchWithin name (p.classes.length + 1) c

end Program

end DemandAlias
