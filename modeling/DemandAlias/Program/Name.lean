import DemandAlias.Data.Order

/-!
# Names

Methods are named `Class.method`; the class part may itself hold dots, so the
last dot is the one that divides. Locals belong to a method: locals of different
methods are different, however they are spelled.
-/

namespace DemandAlias

/-! ### Dotted names -/

/-- The parts of a name before and after its last dot, if it has one. -/
def splitAtLastDot : List Char → Option (List Char × List Char)
  | [] => none
  | c :: cs =>
    match splitAtLastDot cs with
    | some (before, after) => some (c :: before, after)
    | none => if c = '.' then some ([], cs) else none

/-- Whether a name is of the form `Class.method`. -/
def isQualified (name : String) : Bool := name.toList.contains '.'

/-- The part of a name after its last dot, if it has one. -/
def afterLastDot? (name : String) : Option String :=
  (splitAtLastDot name.toList).map fun (_, after) => String.ofList after

/-! ### Methods and classes -/

/-- The full name of a method, `Class.method`. -/
structure MethodName where
  text : String
  deriving DecidableEq, Hashable, Inhabited

/-- The name of a class. -/
structure ClassName where
  text : String
  deriving DecidableEq, Hashable, Inhabited

namespace MethodName

/-- What stands before the last dot; nothing if there is no dot. -/
def className (m : MethodName) : String :=
  match splitAtLastDot m.text.toList with
  | some (before, _) => String.ofList before
  | none => ""

/-- What stands after the last dot; everything if there is no dot. -/
def shortName (m : MethodName) : String := (afterLastDot? m.text).getD m.text

instance : Ord MethodName where
  compare := compareOn text

instance : Std.TransOrd MethodName := inferInstanceAs (Std.TransCmp (compareOn text))

instance : Std.LawfulEqOrd MethodName := lawfulEqCmp_compareOn fun ⟨_⟩ ⟨_⟩ h => congrArg mk h

end MethodName

namespace ClassName

/-- The name of the method `name` of class `c`. -/
def method (c : ClassName) (name : String) : MethodName := ⟨c.text ++ "." ++ name⟩

instance : Ord ClassName where
  compare := compareOn text

instance : Std.TransOrd ClassName := inferInstanceAs (Std.TransCmp (compareOn text))

instance : Std.LawfulEqOrd ClassName := lawfulEqCmp_compareOn fun ⟨_⟩ ⟨_⟩ h => congrArg mk h

end ClassName

/-! ### Locals -/

/-- A local variable of a method. -/
structure Local where
  method : MethodName
  name : String
  deriving DecidableEq, Hashable, Inhabited

namespace Local

instance : Ord Local where
  compare := compareOn fun l => (l.method, l.name)

instance : Std.TransOrd Local :=
  inferInstanceAs (Std.TransCmp (compareOn fun l : Local => (l.method, l.name)))

instance : Std.LawfulEqOrd Local :=
  lawfulEqCmp_compareOn fun ⟨_, _⟩ ⟨_, _⟩ h => by
    cases h
    rfl

/-- The local together with its method. -/
def qualified (l : Local) : String := l.method.text ++ "::" ++ l.name

end Local

end DemandAlias
