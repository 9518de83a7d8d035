/-!
# The arguments of the command line

Flags stand alone; parameters take a value, in the next argument or behind an equals
sign. Each may be given once, in any order, and the one argument that is neither is
the program description. After two dashes nothing is a flag or a parameter any more.
-/

namespace DemandAlias.Command

/-- What is checked. -/
inductive Check where
  /-- Methods said to be unreachable must not be reached. -/
  | standard
  /-- Nothing is checked. -/
  | nothing
  /-- A query that times out is an error, too. -/
  | strict
  deriving DecidableEq, Inhabited

/-- The check with this name. -/
def Check.ofName? : String → Option Check
  | "default" => some .standard
  | "none" => some .nothing
  | "strict" => some .strict
  | _ => none

/-- The flags. -/
inductive Flag where
  /-- Forward queries for all allocations, not backward queries for the arguments asked about. -/
  | forward
  /-- Calls are resolved on the fly. -/
  | onTheFly
  /-- The trails to the nodes are reported. -/
  | path
  /-- Nodes are left out whose trails no execution takes. -/
  | prune
  /-- The answers are not reported. -/
  | quiet
  /-- Statistics are reported. -/
  | stats
  /-- Accepted, without effect on the report. -/
  | tracing
  deriving DecidableEq, Inhabited

/-- The flag with this name. -/
def Flag.ofName? : String → Option Flag
  | "forward" => some .forward
  | "on-the-fly" => some .onTheFly
  | "path" => some .path
  | "prune" => some .prune
  | "quiet" => some .quiet
  | "stats" => some .stats
  | "tracing" => some .tracing
  | _ => none

/-- The parameters. -/
inductive Parameter where
  /-- What is checked. -/
  | check
  /-- How many steps a query may take. -/
  | maxSteps
  /-- Where the scope is described. -/
  | scope
  /-- How many milliseconds a query may take, zero for any number. -/
  | timeout
  deriving DecidableEq, Inhabited

/-- The parameter with this name. -/
def Parameter.ofName? : String → Option Parameter
  | "check" => some .check
  | "max-steps" => some .maxSteps
  | "scope" => some .scope
  | "timeout-ms" => some .timeout
  | _ => none

/-! ### Items -/

/-- A part of the command line. -/
inductive Item where
  | flag (f : Flag)
  | parameter (p : Parameter) (value : List Char)
  | operand (text : List Char)
  deriving DecidableEq, Inhabited

/-- Whether an argument is neither a flag nor a parameter. A single dash is an ordinary argument. -/
def isPlain : List Char → Bool
  | '-' :: _ :: _ => false
  | _ => true

/-- Splits a text at its first equals sign. -/
def splitAtEquals (text : List Char) : List Char × Option (List Char) :=
  (text.takeWhile (· != '='),
    match text.dropWhile (· != '=') with
    | [] => none
    | _ :: value => some value)

/-- What an argument that begins with a dash is: an item, or a parameter whose value
    is the next argument. -/
def dashed? : List Char → Option (Item ⊕ Parameter)
  | '-' :: '-' :: text =>
    let (name, value) := splitAtEquals text
    let name := String.ofList name
    match Flag.ofName? name, Parameter.ofName? name, value with
    | some f, _, none => some (.inl (.flag f))
    | _, some p, some value => some (.inl (.parameter p value))
    | _, some p, none => some (.inr p)
    | _, _, _ => none
  | ['-', 's'] => some (.inr .scope)
  | '-' :: 's' :: '=' :: value => some (.inl (.parameter .scope value))
  | '-' :: 's' :: value => some (.inl (.parameter .scope value))
  | _ => none

/-- The items of a command line, if it can be read. -/
def items? : List (List Char) → Option (List Item)
  | [] => some []
  | arg :: args =>
    if arg = ['-', '-'] then some (args.map .operand)
    else if isPlain arg then (items? args).map (.operand arg :: ·)
    else match dashed? arg, args with
      | some (.inl item), args => (items? args).map (item :: ·)
      | some (.inr p), value :: args =>
        if isPlain value then (items? args).map (.parameter p value :: ·) else none
      | _, _ => none

/-! ### Arguments -/

/-- What a command line asks for. -/
structure Arguments where
  /-- Where the program is described. -/
  program : String
  /-- Where the scope is described. -/
  scope : Option String := none
  check : Check := .standard
  flags : List Flag := []
  maxSteps : Option Nat := none
  /-- How many milliseconds a query may take, zero for any number. -/
  timeout : Nat := 10000
  deriving DecidableEq, Inhabited

namespace Arguments

/-- Whether a flag is given. -/
def has (a : Arguments) (f : Flag) : Bool := a.flags.contains f

/-- The only element of a list that has no more than one. -/
def atMostOne? {α : Type} : List α → Option (Option α)
  | [] => some none
  | [a] => some (some a)
  | _ => none

/-- The values given to a parameter. -/
def valuesOf (items : List Item) (p : Parameter) : List (List Char) :=
  items.filterMap fun
    | .parameter p' value => if p' = p then some value else none
    | _ => none

/-- The flags given. -/
def flagsOf (items : List Item) : List Flag :=
  items.filterMap fun
    | .flag f => some f
    | _ => none

/-- The operands given. -/
def operandsOf (items : List Item) : List (List Char) :=
  items.filterMap fun
    | .operand text => some text
    | _ => none

/-- Reads a number of 64 bits, which may have a plus sign. -/
def number? (text : List Char) : Option Nat :=
  let digits := match text with
    | '+' :: digits => digits
    | digits => digits
  if digits.isEmpty || !digits.all Char.isDigit then none
  else
    let n := digits.foldl (fun n d => 10 * n + (d.toNat - '0'.toNat)) 0
    if n < UInt64.size then some n else none

/-- Reads the name of a file, which is not empty. -/
def file? (text : List Char) : Option String :=
  if text.isEmpty then none else some (String.ofList text)

/-- The value of a parameter that may be left out. -/
def value? {α : Type} (items : List Item) (p : Parameter) (read? : List Char → Option α) :
    Option (Option α) := do
  match ← atMostOne? (valuesOf items p) with
  | some value => (read? value).map some
  | none => some none

/-- What the items ask for, if they fit together. -/
def ofItems? (items : List Item) : Option Arguments := do
  let check ← value? items .check fun value => Check.ofName? (String.ofList value)
  let maxSteps ← value? items .maxSteps number?
  let scope ← value? items .scope file?
  let timeout ← value? items .timeout number?
  let program ← (← atMostOne? (operandsOf items)) >>= file?
  let flags := flagsOf items
  if flags.Nodup then
    some {
      program, scope, flags, maxSteps
      check := check.getD .standard
      timeout := timeout.getD 10000 }
  else none

/-- Reads a command line. -/
def parse? (args : List String) : Option Arguments := items? (args.map String.toList) >>= ofItems?

end Arguments

end DemandAlias.Command
