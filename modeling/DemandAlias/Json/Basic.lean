/-!
# JSON values

Programs and scopes are described in JSON. A value keeps what its reader may
object to later: the members of an object in the order they were written, with
repeated keys, and the difference between an integer and any other number.

Some values are well-formed and yet cannot be read: a string with half of a
surrogate pair, a number too large for floating point, an object with such a string
as a key. They do no harm where nobody reads them. Who reads a value as a whole,
whatever it may hold, asks for `Json.isLegible`.
-/

namespace DemandAlias

/-- A JSON value. -/
inductive Json where
  | null
  | bool (b : Bool)
  /-- An integer that fits in 64 bits, with or without a sign. -/
  | int (value : Int)
  /-- Any other number, as it was written. -/
  | real (literal : String)
  | str (text : String)
  | arr (elements : List Json)
  /-- An object, with its members as they were written. -/
  | obj (members : List (String × Json))
  /-- A value that is well-formed, but cannot be read. -/
  | illegible
  deriving Inhabited

namespace Json

mutual

/-- Whether all parts of a value can be read, and no more than `depth` arrays and
    objects are inside of each other. -/
def isLegible (depth : Nat) : Json → Bool
  | .null | .bool _ | .int _ | .real _ | .str _ => true
  | .illegible => false
  | .arr elements =>
    match depth with
    | 0 => false
    | depth + 1 => areLegible depth elements
  | .obj members =>
    match depth with
    | 0 => false
    | depth + 1 => membersLegible depth members

/-- Whether all parts of the elements of an array can be read. -/
def areLegible (depth : Nat) : List Json → Bool
  | [] => true
  | value :: rest => isLegible depth value && areLegible depth rest

/-- Whether all parts of the members of an object can be read. -/
def membersLegible (depth : Nat) : List (String × Json) → Bool
  | [] => true
  | (_, value) :: rest => isLegible depth value && membersLegible depth rest

end

/-! ### Taking values apart -/

/-- The text of a string. -/
def str? : Json → Option String
  | .str text => some text
  | _ => none

/-- An integer between `least` and `greatest`. -/
def intWithin? (least greatest : Int) : Json → Option Int
  | .int value => if least ≤ value ∧ value ≤ greatest then some value else none
  | _ => none

/-- The elements of an array, each read by `f`. -/
def list? {α : Type} (f : Json → Option α) : Json → Option (List α)
  | .arr elements => elements.mapM f
  | _ => none

/-- Nothing for null, and otherwise the value read by `f`. -/
def optional? {α : Type} (f : Json → Option α) : Json → Option (Option α)
  | .null => some none
  | value => (f value).map some

/-- The value of a key that must not be repeated. -/
def member? (members : List (String × Json)) (key : String) : Option (Option Json) :=
  match members.filter fun (k, _) => k == key with
  | [] => some none
  | [(_, value)] => some (some value)
  | _ => none

/-- The values of the fields of a record, each if it is given. A record is an object, of which other
    keys are ignored and these may not be repeated, or an array of the values in the order of the
    fields, of which the last ones may be left out. -/
def fields? (names : List String) : Json → Option (List (Option Json))
  | .obj members => names.mapM (member? members)
  | .arr elements =>
    if elements.length ≤ names.length then
      some (elements.map some ++ List.replicate (names.length - elements.length) none)
    else none
  | _ => none

/-- A field that must be given. -/
def required? {α : Type} (f : Json → Option α) (value : Option Json) : Option α := value.bind f

/-- A field that stands for `fallback` if it is left out. -/
def default? {α : Type} (fallback : α) (f : Json → Option α) : Option Json → Option α
  | none => some fallback
  | some value => f value

end Json

end DemandAlias
