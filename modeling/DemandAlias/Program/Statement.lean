import DemandAlias.Program.Name
import DemandAlias.Program.Field

/-!
# Statements

The statements of the small object-oriented language the analysis works on. A
statement knows its method and its place in the method's body, so that equal
statements at different places are different.
-/

namespace DemandAlias

/-! ### Constants and operands -/

/-- A constant. -/
inductive Constant where
  | int (value : Int)
  | str (text : String)
  | null
  deriving DecidableEq, Hashable, Inhabited

namespace Constant

/-- The shape that orders constants. -/
def shape : Constant → Int ⊕ String ⊕ Unit
  | .int value => .inl value
  | .str text => .inr (.inl text)
  | .null => .inr (.inr ())

instance : Ord Constant where
  compare := compareOn shape

instance : Std.TransOrd Constant := inferInstanceAs (Std.TransCmp (compareOn shape))

instance : Std.LawfulEqOrd Constant :=
  lawfulEqCmp_compareOn fun c d h => by
    cases c <;> cases d <;> cases h <;> rfl

/-- How a constant is written. -/
def render : Constant → String
  | .int value => toString value
  | .str text => Text.quoted text
  | .null => "null"

end Constant

/-- An operand: a local, spelled as a `ν`, or a constant. -/
inductive Operand (ν : Type) where
  | var (v : ν)
  | const (c : Constant)
  deriving DecidableEq, Hashable, Inhabited

namespace Operand

variable {ν μ : Type}

/-- The local an operand is, if it is one. -/
def var? : Operand ν → Option ν
  | .var v => some v
  | .const _ => none

/-- The operand with its local spelled anew. -/
def map (f : ν → μ) : Operand ν → Operand μ
  | .var v => .var (f v)
  | .const c => .const c

/-- The shape that orders operands. -/
def shape : Operand ν → ν ⊕ Constant
  | .var v => .inl v
  | .const c => .inr c

instance [Ord ν] : Ord (Operand ν) where
  compare := compareOn shape

instance [Ord ν] [Std.TransOrd ν] : Std.TransOrd (Operand ν) :=
  inferInstanceAs (Std.TransCmp (compareOn shape))

instance [Ord ν] [Std.LawfulEqOrd ν] : Std.LawfulEqOrd (Operand ν) :=
  lawfulEqCmp_compareOn fun a b h => by
    cases a <;> cases b <;> cases h <;> rfl

/-- How an operand of a method is written. -/
def render : Operand Local → String
  | .var v => v.name
  | .const c => c.render

end Operand

/-! ### Calls -/

/-- What a call calls. -/
inductive Callee where
  /-- The method of this name. -/
  | static (method : MethodName)
  /-- The method of this short name in the class of the receiver's object. -/
  | virtual (receiver : Local) (name : String)
  deriving DecidableEq, Hashable, Inhabited

namespace Callee

/-- The shape that orders callees. -/
def shape : Callee → MethodName ⊕ Local × String
  | .static method => .inl method
  | .virtual receiver name => .inr (receiver, name)

instance : Ord Callee where
  compare := compareOn shape

instance : Std.TransOrd Callee := inferInstanceAs (Std.TransCmp (compareOn shape))

instance : Std.LawfulEqOrd Callee :=
  lawfulEqCmp_compareOn fun a b h => by
    cases a <;> cases b <;> cases h <;> rfl

end Callee

/-- A call: the callee and the arguments. -/
structure Call where
  callee : Callee
  args : List (Operand Local)
  deriving DecidableEq, Hashable, Inhabited

namespace Call

/-- The receiver of a virtual call. -/
def receiver? (c : Call) : Option Local :=
  match c.callee with
  | .static _ => none
  | .virtual receiver _ => some receiver

/-- The short name of the method called. -/
def methodName (c : Call) : String :=
  match c.callee with
  | .static method => method.shortName
  | .virtual _ name => name

/-- The argument at place `i`, if it is a local. -/
def argument? (c : Call) (i : Nat) : Option Local := c.args[i]?.bind Operand.var?

/-- The places of the local `l` among the arguments. -/
def placesOf (c : Call) (l : Local) : List Nat :=
  (c.args.zipIdx.filter fun (a, _) => a.var? == some l).map (·.2)

/-- Whether the call is passed what `l` holds, as receiver or as argument. -/
def uses (c : Call) (l : Local) : Bool :=
  c.receiver? == some l || c.args.any fun a => a.var? == some l

instance : Ord Call where
  compare := compareOn fun c => (c.callee, c.args)

instance : Std.TransOrd Call :=
  inferInstanceAs (Std.TransCmp (compareOn fun c : Call => (c.callee, c.args)))

instance : Std.LawfulEqOrd Call :=
  lawfulEqCmp_compareOn fun ⟨_, _⟩ ⟨_, _⟩ h => by
    cases h
    rfl

/-- How a call is written. -/
def render (c : Call) : String :=
  let callee := match c.callee with
    | .static method => method.text
    | .virtual receiver name => receiver.name ++ "." ++ name
  callee ++ "(" ++ Text.commaSeparated (c.args.map Operand.render) ++ ")"

end Call

/-! ### Conditions -/

/-- A comparison. -/
inductive Comparison where
  | eq
  | ne
  deriving DecidableEq, Hashable, Inhabited

namespace Comparison

/-- The shape that orders comparisons. -/
def shape : Comparison → Unit ⊕ Unit
  | .eq => .inl ()
  | .ne => .inr ()

instance : Ord Comparison where
  compare := compareOn shape

instance : Std.TransOrd Comparison := inferInstanceAs (Std.TransCmp (compareOn shape))

instance : Std.LawfulEqOrd Comparison :=
  lawfulEqCmp_compareOn fun a b h => by
    cases a <;> cases b <;> cases h <;> rfl

/-- How a comparison is written. -/
def render : Comparison → String
  | .eq => "=="
  | .ne => "!="

end Comparison

/-- The condition of a branch: a local compared with an operand. -/
structure Condition where
  lhs : Local
  comparison : Comparison
  rhs : Operand Local
  deriving DecidableEq, Hashable, Inhabited

namespace Condition

instance : Ord Condition where
  compare := compareOn fun c => (c.lhs, c.comparison, c.rhs)

instance : Std.TransOrd Condition :=
  inferInstanceAs (Std.TransCmp (compareOn fun c : Condition => (c.lhs, c.comparison, c.rhs)))

instance : Std.LawfulEqOrd Condition :=
  lawfulEqCmp_compareOn fun ⟨_, _, _⟩ ⟨_, _, _⟩ h => by
    cases h
    rfl

/-- How a condition is written. -/
def render (c : Condition) : String :=
  c.lhs.name ++ " " ++ c.comparison.render ++ " " ++ c.rhs.render

end Condition

/-! ### Statements -/

/-- What a local is assigned. -/
inductive Expr where
  /-- What another local holds. -/
  | copy (source : Local)
  /-- A fresh object of a class. -/
  | alloc (className : ClassName)
  /-- A constant. -/
  | const (c : Constant)
  /-- What a field of an object holds. -/
  | load (base : Local) (field : Field)
  /-- What a call returns. -/
  | call (c : Call)
  deriving DecidableEq, Hashable, Inhabited

namespace Expr

/-- The shape that orders expressions. -/
def shape : Expr → Local ⊕ ClassName ⊕ Constant ⊕ (Local × Field) ⊕ Call
  | .copy source => .inl source
  | .alloc className => .inr (.inl className)
  | .const c => .inr (.inr (.inl c))
  | .load base field => .inr (.inr (.inr (.inl (base, field))))
  | .call c => .inr (.inr (.inr (.inr c)))

instance : Ord Expr where
  compare := compareOn shape

instance : Std.TransOrd Expr := inferInstanceAs (Std.TransCmp (compareOn shape))

instance : Std.LawfulEqOrd Expr :=
  lawfulEqCmp_compareOn fun a b h => by
    cases a <;> cases b <;> cases h <;> rfl

/-- Whether the expression creates a value, an object or a constant. -/
def creates : Expr → Bool
  | .alloc _ | .const _ => true
  | _ => false

/-- How an expression is written. -/
def render : Expr → String
  | .copy source => source.name
  | .alloc className => "new " ++ className.text
  | .const c => c.render
  | .load base field => base.name ++ "." ++ field.render
  | .call c => c.render

end Expr

/-- What a statement does. -/
inductive Action where
  | assign (target : Local) (value : Expr)
  | store (base : Local) (field : Field) (value : Local)
  | call (c : Call)
  | branch (condition : Condition) (target : Nat)
  | jump (target : Nat)
  | ret (value : Option (Operand Local))
  | nop
  deriving DecidableEq, Hashable, Inhabited

namespace Action

/-- The shape that orders actions. -/
def shape : Action →
    (Local × Expr) ⊕ (Local × Field × Local) ⊕ Call ⊕ (Condition × Nat) ⊕ Nat ⊕
      Option (Operand Local) ⊕ Unit
  | .assign target value => .inl (target, value)
  | .store base field value => .inr (.inl (base, field, value))
  | .call c => .inr (.inr (.inl c))
  | .branch condition target => .inr (.inr (.inr (.inl (condition, target))))
  | .jump target => .inr (.inr (.inr (.inr (.inl target))))
  | .ret value => .inr (.inr (.inr (.inr (.inr (.inl value)))))
  | .nop => .inr (.inr (.inr (.inr (.inr (.inr ())))))

instance : Ord Action where
  compare := compareOn shape

instance : Std.TransOrd Action := inferInstanceAs (Std.TransCmp (compareOn shape))

instance : Std.LawfulEqOrd Action :=
  lawfulEqCmp_compareOn fun a b h => by
    cases a <;> cases b <;> cases h <;> rfl

/-- How an action is written. -/
def render : Action → String
  | .assign target value => target.name ++ " = " ++ value.render
  | .store base field value => base.name ++ "." ++ field.render ++ " = " ++ value.name
  | .call c => c.render
  | .branch condition target => "if " ++ condition.render ++ " goto " ++ toString target
  | .jump target => "goto " ++ toString target
  | .ret none => "return"
  | .ret (some value) => "return " ++ value.render
  | .nop => "nop"

end Action

/-- A statement at its place in the body of its method. -/
structure Statement where
  method : MethodName
  index : Nat
  action : Action
  deriving DecidableEq, Inhabited

namespace Statement

/-- The place determines the statement within a program, so it is enough to hash. -/
instance : Hashable Statement where
  hash s := mixHash (hash s.method) (hash s.index)

/-- The call a statement makes, if it makes one. -/
def call? (s : Statement) : Option Call :=
  match s.action with
  | .call c | .assign _ (.call c) => some c
  | _ => none

/-- Whether the statement is a call. -/
def isCall (s : Statement) : Bool := s.call?.isSome

/-- The local the statement writes, if it writes one. -/
def defined? (s : Statement) : Option Local :=
  match s.action with
  | .assign target _ => some target
  | _ => none

/-- Whether the statement creates a value, an object or a constant, in `l`. -/
def allocates (s : Statement) (l : Local) : Bool :=
  match s.action with
  | .assign target value => value.creates && target == l
  | _ => false

/-- Whether the statement leaves its method. -/
def isReturn (s : Statement) : Bool :=
  match s.action with
  | .ret _ => true
  | _ => false

instance : Ord Statement where
  compare := compareOn fun s => (s.method, s.index, s.action)

instance : Std.TransOrd Statement :=
  inferInstanceAs (Std.TransCmp (compareOn fun s : Statement => (s.method, s.index, s.action)))

instance : Std.LawfulEqOrd Statement :=
  lawfulEqCmp_compareOn fun ⟨_, _, _⟩ ⟨_, _, _⟩ h => by
    cases h
    rfl

/-- The place of a statement. -/
def place (s : Statement) : String := s.method.text ++ ":" ++ toString s.index

/-- A statement in full, after its place. -/
def render (s : Statement) : String := s.place ++ ": " ++ s.action.render

end Statement

end DemandAlias
