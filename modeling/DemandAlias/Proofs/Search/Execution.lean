import DemandAlias.Program.Basic
import DemandAlias.Pushdown.Node

/-!
# Executions

What a program without calls does when it runs: locals and fields hold values, and every
value remembers where it was created. A field names the *slots* of an object that may be
meant: the one of its name, any element of an array, the value of a map under its key or
under any key. A field that is read may see what was written to another one if and only
if both may mean the same slot (`Field.sees_iff`).

Branches go either way. Reading from what is undefined gives nothing, and writing to it
does nothing.
-/

namespace DemandAlias

/-! ### Slots -/

/-- A place in an object. -/
inductive Slot where
  | named (name : String)
  | element (index : Nat)
  | key (text : String)
  deriving DecidableEq

namespace Field

/-- Whether the field may mean the slot. -/
def covers : Field → Slot → Bool
  | .named name, .named name' => name == name'
  | .element, .element _ => true
  | .key text, .key text' => text == text'
  | .anyKey, .key _ => true
  | _, _ => false

/-- What is written to a field may be seen by reading another one if both may mean the same slot. -/
theorem sees_iff (read written : Field) :
    read.sees written = true ↔ ∃ slot, read.covers slot = true ∧ written.covers slot = true := by
  constructor
  · intro h
    cases read with
    | epsilon => cases h
    | named name =>
      cases written with
      | named name' =>
        obtain rfl : name = name' := by simpa [sees] using h
        exact ⟨.named name, by simp [covers], by simp [covers]⟩
      | _ => cases h
    | element =>
      cases written with
      | element => exact ⟨.element 0, rfl, rfl⟩
      | _ => cases h
    | key text =>
      cases written with
      | key text' =>
        obtain rfl : text = text' := by simpa [sees] using h
        exact ⟨.key text, by simp [covers], by simp [covers]⟩
      | anyKey => exact ⟨.key text, by simp [covers], rfl⟩
      | _ => cases h
    | anyKey =>
      cases written with
      | key text => exact ⟨.key text, rfl, by simp [covers]⟩
      | anyKey => exact ⟨.key "", rfl, rfl⟩
      | _ => cases h
  · rintro ⟨slot, hread, hwritten⟩
    cases slot <;> cases read <;> cases written <;> simp_all [covers, sees]

end Field

/-! ### Memory -/

/-- A value that was created: an object or a constant. -/
structure Value where
  /-- The statement that created it, and the local it was created in. -/
  origin : Node
  /-- Which of the values created there it is. -/
  serial : Nat
  deriving DecidableEq

/-- What locals and slots hold. -/
structure Memory where
  locals : Local → Option Value
  heap : Value → Slot → Option Value

namespace Memory

/-- Nothing is defined. -/
def empty : Memory := ⟨fun _ => none, fun _ _ => none⟩

/-- The memory in which `x` holds `v`. -/
def assign (m : Memory) (x : Local) (v : Option Value) : Memory :=
  { m with locals := fun y => if y = x then v else m.locals y }

/-- What a slot of the object in `x` holds. -/
def read (m : Memory) (x : Local) (slot : Slot) : Option Value :=
  (m.locals x).bind fun o => m.heap o slot

/-- The memory in which a slot of the object in `x` holds `v`. -/
def write (m : Memory) (x : Local) (slot : Slot) (v : Option Value) : Memory :=
  match m.locals x with
  | some o => { m with heap := fun o' s => if o' = o ∧ s = slot then v else m.heap o' s }
  | none => m

/-- The value is not in use. -/
structure Fresh (m : Memory) (v : Value) : Prop where
  locals : ∀ x, m.locals x ≠ some v
  held : ∀ o slot, m.heap o slot ≠ some v
  heap : ∀ slot, m.heap v slot = none

/-- What running a statement does to the memory. -/
inductive Step (s : Statement) (m : Memory) : Memory → Prop
  | create {x : Local} {e : Expr} {v : Value} (haction : s.action = .assign x e)
      (hcreates : e.creates = true) (horigin : v.origin = ⟨s, x⟩) (hfresh : m.Fresh v) :
    Step s m (m.assign x (some v))
  | copy {x y : Local} (haction : s.action = .assign x (.copy y)) :
    Step s m (m.assign x (m.locals y))
  | load {x base : Local} {field : Field} {slot : Slot}
      (haction : s.action = .assign x (.load base field)) (hslot : field.covers slot = true) :
    Step s m (m.assign x (m.read base slot))
  | store {base value : Local} {field : Field} {slot : Slot}
      (haction : s.action = .store base field value) (hslot : field.covers slot = true) :
    Step s m (m.write base slot (m.locals value))
  | branch {condition : Condition} {target : Nat} (haction : s.action = .branch condition target) :
    Step s m m
  | jump {target : Nat} (haction : s.action = .jump target) : Step s m m
  | nop (haction : s.action = .nop) : Step s m m

/-- Reading slots one after the other leads from the first value to the second one. -/
inductive Reads (m : Memory) : Value → List Slot → Value → Prop
  | nil {v : Value} : Reads m v [] v
  | cons {o o' v : Value} {slot : Slot} {slots : List Slot} (hslot : m.heap o slot = some o')
      (h : Reads m o' slots v) : Reads m o (slot :: slots) v

/-- Reading slots one after the other leads from what `x` holds to the value. -/
def Path (m : Memory) (x : Local) (slots : List Slot) (v : Value) : Prop :=
  ∃ o, m.locals x = some o ∧ m.Reads o slots v

end Memory

/-! ### Executions -/

/-- An execution that is just before a statement, with this memory. -/
inductive Execution (p : Program) : Statement → Memory → Type
  | start {name : MethodName} {method : Method} {s : Statement}
      (hmethod : p.method? name = some method) (hs : method.start? = some s) :
    Execution p s .empty
  | step {s t : Statement} {m m' : Memory} (e : Execution p s m) (hstep : m.Step s m')
      (ht : t ∈ p.successors s) : Execution p t m'

/-- Whenever a field of an object is written, no field of an object that locals lead to
    holds it: objects are filled before they are put into others. -/
def Execution.WritesLocally {p : Program} {s : Statement} {m : Memory} : Execution p s m → Prop
  | .start _ _ => True
  | @step _ s _ m m' e _ _ => e.WritesLocally ∧
    ∀ base field value o, s.action = .store base field value → m.locals base = some o →
      ∀ x slots, m'.Path x slots o → slots = []

end DemandAlias
