import DemandAlias.Proofs.Program.Flow

/-!
# The search behind a backward query

What the solvers of a backward query look for together, without automata, messages and
an order: from a local and a list of fields to read, the search goes on to others
(`Steps`). A field that is read is pushed, one that is written is popped, and at two
places a search relies on others:

* where a followed object is written to a field of `base`, it goes on from every local
  that holds the object of `base` there: a search backward finds the creation of that
  object, and a search forward from the creation finds the locals;
* where the creation of an object is found and a field of it is still to be read, the
  stores to that field are found by a search forward from the creation.

Locals are all that such a search goes on from: that the object written to may be held
by a field of another object does not count.
-/

namespace DemandAlias.Search

/-- A local at a statement, and the fields to read from what it holds, one after the other. -/
structure Access where
  node : Node
  fields : List Field

/-- What a move does to the fields to be read. Calls are not followed. -/
inductive Acts : Move → List Field → List Field → Prop
  | step {n : Node} {fields : List Field} : Acts (.step n) fields fields
  | push {n : Node} {f : Field} {fields : List Field} :
    Acts (.push n (.field f)) fields (f :: fields)
  | pop {n : Node} {f g : Field} {fields : List Field} (hsees : f.sees g = true) :
    Acts (.pop n (.field f)) (g :: fields) fields

/-- The search in a direction and from a seed goes from the first access on to the second one. -/
inductive Steps (p : Program) : Direction → Node → Access → Access → Prop
  | refl {direction : Direction} {seed : Node} {a : Access} : Steps p direction seed a a
  | move {direction : Direction} {seed : Node} {a : Access} {n : Node} {m : Move}
      {fields fields' : List Field} (h : Steps p direction seed a ⟨n, fields⟩)
      (hm : m ∈ (p.flow direction seed n).moves) (hacts : Acts m fields fields') :
    Steps p direction seed a ⟨m.target, fields'⟩
  | shared {seed : Node} {a : Access} {store owner : Node} {base y : Local} {field : Field}
      {fields : List Field} {t : Statement} (h : Steps p .forward seed a ⟨store, fields⟩)
      (hstore : store.stmt.action = .store base field store.var)
      (howner : owner.stmt.allocates owner.var = true)
      (hbase : Steps p .backward ⟨store.stmt, base⟩ ⟨⟨store.stmt, base⟩, []⟩ ⟨owner, []⟩)
      (hother : Steps p .forward owner ⟨owner, []⟩ ⟨⟨store.stmt, y⟩, []⟩) (hne : y ≠ base)
      (ht : t ∈ p.successors store.stmt) : Steps p .forward seed a ⟨⟨t, y⟩, field :: fields⟩
  | stored {seed : Node} {a : Access} {store owner : Node} {value : Local}
      {field written : Field} {fields : List Field}
      (h : Steps p .backward seed a ⟨owner, field :: fields⟩)
      (howner : owner.stmt.allocates owner.var = true)
      (hbase : Steps p .forward owner ⟨owner, []⟩ ⟨store, []⟩)
      (hstore : store.stmt.action = .store store.var written value)
      (hsees : field.sees written = true) :
    Steps p .backward seed a ⟨⟨store.stmt, value⟩, fields⟩

/-- The search comes to the access, with nothing to be read at first. -/
abbrev Finds (p : Program) (direction : Direction) (seed : Node) (a : Access) : Prop :=
  Steps p direction seed ⟨seed, []⟩ a

theorem Steps.trans {p : Program} {direction : Direction} {seed : Node} {a b d : Access}
    (h : Steps p direction seed a b) (h' : Steps p direction seed b d) :
    Steps p direction seed a d := by
  induction h' with
  | refl => exact h
  | move _ hm hacts ih => exact (ih h).move hm hacts
  | shared _ hstore howner hbase hother hne ht ih =>
    exact (ih h).shared hstore howner hbase hother hne ht
  | stored _ howner hbase hstore hsees ih => exact (ih h).stored howner hbase hstore hsees

end DemandAlias.Search
