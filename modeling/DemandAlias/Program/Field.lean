import DemandAlias.Data.Order
import DemandAlias.Text.Quoted

/-!
# Fields

The labels of access paths: the named fields of objects, the elements of arrays,
the values of maps under a known or an unknown key, and the empty label, which
ends every access path at the object itself.
-/

namespace DemandAlias

/-- A label of an access path. -/
inductive Field where
  /-- The end of every access path: the object itself. -/
  | epsilon
  /-- A named field of an object. -/
  | named (name : String)
  /-- The elements of an array, all alike. -/
  | element
  /-- The value of a map under a known key. -/
  | key (text : String)
  /-- The value of a map under some key. -/
  | anyKey
  deriving DecidableEq, Hashable, Inhabited

namespace Field

/-- Whether reading the field `read` may see what was written to the field `written`. A map key that
    is not known may be any key. Nothing is read from or written to the empty label. -/
def sees (read written : Field) : Bool :=
  match read, written with
  | .epsilon, _ => false
  | _, .epsilon => false
  | .anyKey, .key _ => true
  | .key _, .anyKey => true
  | read, written => read == written

/-- The shape that orders fields. -/
def shape : Field → Unit ⊕ String ⊕ Unit ⊕ String ⊕ Unit
  | .epsilon => .inl ()
  | .named name => .inr (.inl name)
  | .element => .inr (.inr (.inl ()))
  | .key text => .inr (.inr (.inr (.inl text)))
  | .anyKey => .inr (.inr (.inr (.inr ())))

instance : Ord Field where
  compare := compareOn shape

instance : Std.TransOrd Field := inferInstanceAs (Std.TransCmp (compareOn shape))

instance : Std.LawfulEqOrd Field :=
  lawfulEqCmp_compareOn fun f g h => by
    cases f <;> cases g <;> cases h <;> rfl

/-- How a field is written. -/
def render : Field → String
  | .epsilon => "ε"
  | .named name => name
  | .element => "[]"
  | .key text => "[" ++ Text.quoted text ++ "]"
  | .anyKey => "[*]"

end Field

end DemandAlias
