import DemandAlias.Description.Basic
import DemandAlias.Json.Basic

/-!
# Descriptions in JSON

How a description is written in JSON and read back. Reading ignores keys it does
not know and refuses known ones given twice. What may be absent may be left out;
optional names may be null as well, lists may not. An instruction is told by its
key `op`, and is read as a whole before that key is looked at; what is illegible or
nested too deep must not be in it, not even where it is ignored. An operand is a
constant if it can be read as one, and otherwise the name of a local, so that no
local can be called `null` there.
-/

namespace DemandAlias

open Json (str? list? optional? required? default? fields?)

/-! ### Constants and operands -/

namespace Constant

/-- The constant of a kind that is followed by a value; `isNothing` says which
    values may follow the null constant. -/
def ofTagged? (isNothing : Json → Bool) (kind : String) (value : Json) : Option Constant :=
  if kind = "int" then (value.intWithin? Int64.minValue.toInt Int64.maxValue.toInt).map .int
  else if kind = "str" then value.str?.map .str
  else if kind = "null" ∧ isNothing value then some .null
  else none

/-- A constant is its kind with its value, or the text `null`. -/
def ofJsonWith? (isNothing : Json → Bool) : Json → Option Constant
  | .str kind => if kind = "null" then some .null else none
  | .obj [(kind, value)] => ofTagged? isNothing kind value
  | _ => none

/-- Whether a value may follow the name of an alternative without contents. -/
def isVoid : Json → Bool
  | .null | .obj [] => true
  | _ => false

/-- The constant of a constant instruction. -/
def ofJson? : Json → Option Constant := ofJsonWith? isVoid

/-- The constant written as a value. -/
def toJson : Constant → Json
  | .int value => .obj [("int", .int value)]
  | .str text => .obj [("str", .str text)]
  | .null => .str "null"

end Constant

namespace Operand

/-- Whether a value is null. -/
def isNull : Json → Bool
  | .null => true
  | _ => false

/-- A constant if the value is one, and otherwise the name of a local. -/
def ofJson? (value : Json) : Option (Operand String) :=
  match Constant.ofJsonWith? isNull value with
  | some c => some (.const c)
  | none => value.str?.map .var

/-- The operand written as a value. -/
def toJson : Operand String → Json
  | .const c => c.toJson
  | .var name => .str name

end Operand

namespace Comparison

/-- The comparison of this name. -/
def ofName? (name : String) : Option Comparison :=
  if name = "eq" then some .eq
  else if name = "ne" then some .ne
  else none

/-- A comparison is its name, which may also be the key of an empty value. -/
def ofJson? : Json → Option Comparison
  | .str name => ofName? name
  | .obj [(name, value)] => if Constant.isVoid value then ofName? name else none
  | _ => none

/-- The comparison written as a value. -/
def toJson : Comparison → Json
  | .eq => .str "eq"
  | .ne => .str "ne"

end Comparison

/-! ### Instructions -/

namespace Instruction

/-- The place of an instruction. -/
def target? (value : Json) : Option Nat :=
  (value.intWithin? 0 (UInt32.size - 1 : Nat)).map Int.toNat

/-- The instruction of an operation with these contents. -/
def ofOperation? (op : String) (contents : Json) : Option Instruction :=
  if op = "new" then do
    let [lhs, className] ← fields? ["lhs", "class"] contents | none
    some (.new (← required? str? lhs) (← required? str? className))
  else if op = "const" then do
    let [lhs, value] ← fields? ["lhs", "value"] contents | none
    some (.const (← required? str? lhs) (← required? Constant.ofJson? value))
  else if op = "copy" then do
    let [lhs, rhs] ← fields? ["lhs", "rhs"] contents | none
    some (.copy (← required? str? lhs) (← required? str? rhs))
  else if op = "load" then do
    let [lhs, base, field] ← fields? ["lhs", "base", "field"] contents | none
    some (.load (← required? str? lhs) (← required? str? base) (← required? str? field))
  else if op = "store" then do
    let [base, field, rhs] ← fields? ["base", "field", "rhs"] contents | none
    some (.store (← required? str? base) (← required? str? field) (← required? str? rhs))
  else if op = "call" then do
    let [lhs, method, args] ← fields? ["lhs", "method", "args"] contents | none
    some (.call (← default? none (optional? str?) lhs) (← required? str? method)
      (← default? [] (list? Operand.ofJson?) args))
  else if op = "virtual-call" then do
    let [lhs, base, name, args] ← fields? ["lhs", "base", "name", "args"] contents | none
    some (.virtualCall (← default? none (optional? str?) lhs) (← required? str? base)
      (← required? str? name) (← default? [] (list? Operand.ofJson?) args))
  else if op = "if" then do
    let [lhs, comparison, rhs, target] ← fields? ["lhs", "cmp", "rhs", "target"] contents | none
    some (.branch (← required? str? lhs) (← required? Comparison.ofJson? comparison)
      (← required? Operand.ofJson? rhs) (← required? target? target))
  else if op = "goto" then do
    let [target] ← fields? ["target"] contents | none
    some (.jump (← required? target? target))
  else if op = "return" then do
    let [value] ← fields? ["value"] contents | none
    some (.ret (← default? none (optional? Operand.ofJson?) value))
  else if op = "nop" then
    match contents with
    | .obj _ | .arr [] => some .nop
    | _ => none
  else none

/-- An instruction is an object whose key `op` names the operation, or an array that
    begins with that name. -/
def ofTagged? : Json → Option Instruction
  | .obj members =>
    match members.filter fun (key, _) => key == "op" with
    | [(_, .str op)] => ofOperation? op (.obj (members.filter fun (key, _) => key != "op"))
    | _ => none
  | .arr (.str op :: contents) => ofOperation? op (.arr contents)
  | _ => none

/-- How many arrays and objects of an instruction may be inside of each other. For a
    whole description the limit is 127, and an instruction is inside of a body, a
    method, the list of methods and the description. -/
def maxDepth : Nat := 127 - 4

/-- The instruction read from a value, which must be legible as a whole. -/
def ofJson? (value : Json) : Option Instruction :=
  if value.isLegible maxDepth then ofTagged? value else none

/-- The value of an optional name. -/
def nameToJson : Option String → Json
  | some name => .str name
  | none => .null

/-- The instruction written as a value. -/
def toJson : Instruction → Json
  | .new lhs className =>
    .obj [("op", .str "new"), ("lhs", .str lhs), ("class", .str className)]
  | .const lhs value =>
    .obj [("op", .str "const"), ("lhs", .str lhs), ("value", value.toJson)]
  | .copy lhs rhs =>
    .obj [("op", .str "copy"), ("lhs", .str lhs), ("rhs", .str rhs)]
  | .load lhs base field =>
    .obj [("op", .str "load"), ("lhs", .str lhs), ("base", .str base), ("field", .str field)]
  | .store base field rhs =>
    .obj [("op", .str "store"), ("base", .str base), ("field", .str field), ("rhs", .str rhs)]
  | .call lhs method args =>
    .obj [("op", .str "call"), ("lhs", nameToJson lhs), ("method", .str method),
      ("args", .arr (args.map Operand.toJson))]
  | .virtualCall lhs base name args =>
    .obj [("op", .str "virtual-call"), ("lhs", nameToJson lhs), ("base", .str base),
      ("name", .str name), ("args", .arr (args.map Operand.toJson))]
  | .branch lhs comparison rhs target =>
    .obj [("op", .str "if"), ("lhs", .str lhs), ("cmp", comparison.toJson), ("rhs", rhs.toJson),
      ("target", .int target)]
  | .jump target => .obj [("op", .str "goto"), ("target", .int target)]
  | .ret value =>
    .obj [("op", .str "return"),
      ("value", match value with
        | some operand => operand.toJson
        | none => .null)]
  | .nop => .obj [("op", .str "nop")]

end Instruction

/-! ### Declarations -/

namespace ClassDecl

/-- The class read from a value. -/
def ofJson? (value : Json) : Option ClassDecl := do
  let [name, superclass] ← fields? ["name", "superclass"] value | none
  some {
    name := ← required? str? name
    superclass := ← default? none (optional? str?) superclass }

/-- The class written as a value. -/
def toJson (c : ClassDecl) : Json :=
  .obj [("name", .str c.name), ("superclass", Instruction.nameToJson c.superclass)]

end ClassDecl

namespace MethodDecl

/-- The method read from a value. -/
def ofJson? (value : Json) : Option MethodDecl := do
  let [name, receiver, params, body] ← fields? ["name", "this", "params", "body"] value | none
  some {
    name := ← required? str? name
    receiver := ← default? none (optional? str?) receiver
    params := ← default? [] (list? str?) params
    body := ← default? [] (list? Instruction.ofJson?) body }

/-- The method written as a value. -/
def toJson (m : MethodDecl) : Json :=
  .obj [("name", .str m.name), ("this", Instruction.nameToJson m.receiver),
    ("params", .arr (m.params.map .str)), ("body", .arr (m.body.map Instruction.toJson))]

end MethodDecl

namespace Description

/-- The description read from a value. -/
def ofJson? (value : Json) : Option Description := do
  let [classes, methods, unreachable] ← fields? ["classes", "methods", "unreachable"] value | none
  some {
    classes := ← default? [] (list? ClassDecl.ofJson?) classes
    methods := ← required? (list? MethodDecl.ofJson?) methods
    unreachable := ← default? [] (list? str?) unreachable }

/-- The description written as a value, nothing left out. -/
def toJson (d : Description) : Json :=
  .obj [("classes", .arr (d.classes.map ClassDecl.toJson)),
    ("methods", .arr (d.methods.map MethodDecl.toJson)),
    ("unreachable", .arr (d.unreachable.map .str))]

end Description

end DemandAlias
