import DemandAlias.Text.CharSet.Basic
import DemandAlias.Text.Nested

/-!
# Reading sets of characters

A set is written in brackets: characters, ranges of characters and sets in brackets,
one after the other. A caret behind the opening bracket asks for all other
characters. Of two such lists, `&&` takes the characters in both, `--` those only in
the first one, and `~~` those in one of them; of more than two, the first ones are
taken together first. A set has at least one item: dashes that come first are
characters, and without them so is a closing bracket that comes first.

* `setToken?`: the next item, operation or bracket;
* `charSet?`: the set behind an opening bracket, and what follows.
-/

namespace DemandAlias.Text

/-! ### Characters -/

/-- What a character stands for behind a backslash: itself, unless it is a letter or
    a digit, and the control characters that have a letter. -/
def escaped? (c : Char) : Option Char :=
  if c = 'a' then some '\x07'
  else if c = 'f' then some '\x0c'
  else if c = 'n' then some '\n'
  else if c = 'r' then some '\r'
  else if c = 't' then some '\t'
  else if c = 'v' then some '\x0b'
  else if c.isAlphanum || c = '<' || c = '>' || 0x80 ≤ c.toNat then none
  else some c

/-- The next character of a set, which may be escaped, and what follows. -/
def setChar? : List Char → Option (Char × List Char)
  | [] => none
  | ['\\'] => none
  | '\\' :: c :: cs => (escaped? c).map fun c => (c, cs)
  | c :: cs => some (c, cs)

theorem length_of_setChar? {cs rest : List Char} {c : Char} (h : setChar? cs = some (c, rest)) :
    rest.length < cs.length := by
  fun_cases setChar? cs with
  | case1 | case2 => cases h
  | case3 =>
    obtain ⟨d', _, he⟩ := Option.map_eq_some_iff.1 h
    cases he
    simp only [List.length_cons]
    omega
  | case4 _ _ h₁ h₂ =>
    rw [setChar?] at h
    · cases h
      simp
    · exact h₁
    · exact h₂

/-! ### Named sets -/

/-- The set of this name. -/
def namedSet? (name : String) : Option CharSet :=
  let digit := ('0', '9')
  let lower := ('a', 'z')
  let upper := ('A', 'Z')
  let ranges : Option (List (Char × Char)) := match name with
    | "alnum" => some [digit, lower, upper]
    | "alpha" => some [lower, upper]
    | "ascii" => some [('\x00', '\x7f')]
    | "blank" => some [('\t', '\t'), (' ', ' ')]
    | "cntrl" => some [('\x00', '\x1f'), ('\x7f', '\x7f')]
    | "digit" => some [digit]
    | "graph" => some [('!', '~')]
    | "lower" => some [lower]
    | "print" => some [(' ', '~')]
    | "punct" => some [('!', '/'), (':', '@'), ('[', '\x60'), ('\x7b', '~')]
    | "space" => some [('\t', '\r'), (' ', ' ')]
    | "upper" => some [upper]
    | "word" => some [digit, lower, upper, ('_', '_')]
    | "xdigit" => some [digit, ('a', 'f'), ('A', 'F')]
    | _ => none
  ranges.map .ofRanges

/-- Whether there is a caret. -/
def hasCaret : List Char → Bool
  | '^' :: _ => true
  | _ => false

/-- What follows the caret, if there is one. -/
def dropCaret : List Char → List Char
  | '^' :: cs => cs
  | cs => cs

theorem length_of_dropCaret (cs : List Char) : (dropCaret cs).length ≤ cs.length := by
  fun_cases dropCaret cs <;> simp

/-- All characters but those of the set, if they are asked for. -/
def complIf (negated : Bool) (s : CharSet) : CharSet := if negated then .compl s else s

/-- The set whose name stands between colons behind an opening bracket, and what
    follows the closing bracket. -/
def bracketedName? : List Char → Option (CharSet × List Char)
  | ':' :: cs =>
    let name := (dropCaret cs).takeWhile (· != ':')
    match (dropCaret cs).dropWhile (· != ':') with
    | ':' :: ']' :: rest =>
      (namedSet? (String.ofList name)).map fun s => (complIf (hasCaret cs) s, rest)
    | _ => none
  | _ => none

theorem length_of_bracketedName? {cs rest : List Char} {s : CharSet}
    (h : bracketedName? cs = some (s, rest)) : rest.length < cs.length := by
  unfold bracketedName? at h
  split at h
  · next cs =>
    have hcaret := length_of_dropCaret cs
    have hdrop : ((dropCaret cs).dropWhile (· != ':')).length ≤ (dropCaret cs).length :=
      (List.dropWhile_suffix _).length_le
    dsimp only at h
    split at h
    · next rest' hrest =>
      obtain ⟨s', _, he⟩ := Option.map_eq_some_iff.1 h
      cases he
      rw [hrest] at hdrop
      simp only [List.length_cons] at hdrop ⊢
      omega
    · cases h
  · cases h

/-! ### Tokens -/

/-- An operation on the sets written before and behind it. -/
inductive SetOperation where
  | inter
  | diff
  | symmDiff
  deriving DecidableEq, Inhabited

/-- The result of an operation. -/
def SetOperation.apply : SetOperation → CharSet → CharSet → CharSet
  | .inter => .inter
  | .diff => .diff
  | .symmDiff => .symmDiff

/-- A token of a written set. -/
inductive SetToken where
  | item (s : CharSet)
  /-- An opening bracket, whether a caret follows it, and the characters that are
      items because they come first. -/
  | openSet (negated : Bool) (items : List Char)
  | closeSet
  | operation (o : SetOperation)
  deriving Inhabited

/-- The characters that are items because they come first, behind an opening bracket
    and a caret, and what follows. -/
def firstItems : List Char → List Char × List Char
  | ']' :: rest => ([']'], rest)
  | cs => (cs.takeWhile (· == '-'), cs.dropWhile (· == '-'))

theorem length_of_firstItems (cs : List Char) : (firstItems cs).2.length ≤ cs.length := by
  fun_cases firstItems cs with
  | case1 => simp
  | case2 => exact (List.dropWhile_suffix _).length_le

/-- The character or range of characters written next, and what follows. A dash makes a range,
    unless it comes last or another dash follows it. A range has at least one character. -/
def setRange? (cs : List Char) : Option (CharSet × List Char) :=
  match setChar? cs with
  | none => none
  | some (first, rest) =>
    match rest with
    | '-' :: ']' :: _ | '-' :: '-' :: _ => some (.single first, rest)
    | '-' :: rest =>
      match setChar? rest with
      | none => none
      | some (last, rest) => if first ≤ last then some (.range first last, rest) else none
    | rest => some (.single first, rest)

theorem length_of_setRange? {cs rest : List Char} {s : CharSet}
    (h : setRange? cs = some (s, rest)) : rest.length < cs.length := by
  unfold setRange? at h
  split at h
  · cases h
  · next first rest₁ h₁ =>
    have hlen := length_of_setChar? h₁
    split at h
    · cases h
      exact hlen
    · cases h
      exact hlen
    · next rest₂ _ _ =>
      split at h
      · cases h
      · next last rest₃ h₂ =>
        have hlen' := length_of_setChar? h₂
        split at h
        · cases h
          simp only [List.length_cons] at hlen
          omega
        · cases h
    · cases h
      exact hlen

/-- The next token of a set, and what follows. -/
def setToken? : List Char → Option (SetToken × List Char)
  | '[' :: cs =>
    match bracketedName? cs with
    | some (s, rest) => some (.item s, rest)
    | none =>
      let (items, rest) := firstItems (dropCaret cs)
      some (.openSet (hasCaret cs) items, rest)
  | ']' :: cs => some (.closeSet, cs)
  | '&' :: '&' :: cs => some (.operation .inter, cs)
  | '-' :: '-' :: cs => some (.operation .diff, cs)
  | '~' :: '~' :: cs => some (.operation .symmDiff, cs)
  | cs => (setRange? cs).map fun (s, rest) => (.item s, rest)

theorem length_of_setToken? {cs rest : List Char} {t : SetToken}
    (h : setToken? cs = some (t, rest)) : rest.length < cs.length := by
  unfold setToken? at h
  split at h
  · next cs =>
    split at h
    · next s rest' hs =>
      cases h
      exact Nat.lt_succ_of_lt (length_of_bracketedName? hs)
    · cases h
      exact Nat.lt_succ_of_le (Nat.le_trans (length_of_firstItems _) (length_of_dropCaret cs))
  · cases h
    simp
  · cases h
    simp only [List.length_cons]
    omega
  · cases h
    simp only [List.length_cons]
    omega
  · cases h
    simp only [List.length_cons]
    omega
  · obtain ⟨⟨s, rest'⟩, hs, he⟩ := Option.map_eq_some_iff.1 h
    cases he
    exact length_of_setRange? hs

/-! ### Sets -/

/-- A set being read. -/
structure OpenSet where
  /-- Whether all other characters are asked for. -/
  negated : Bool
  /-- What stands before the last operation, and that operation. -/
  before : Option (Nested CharSet × SetOperation) := none
  /-- The items behind the last operation, the latest first. -/
  items : List (Nested CharSet)
  deriving Inhabited

namespace OpenSet

/-- A set with nothing but its first items. -/
def ofItems (negated : Bool) (items : List Char) : OpenSet where
  negated
  items := items.reverse.map fun c => ⟨.single c, 0⟩

/-- The set with one more item. -/
def add (s : OpenSet) (item : Nested CharSet) : OpenSet := { s with items := item :: s.items }

/-- What has been read of the set. -/
def contents (s : OpenSet) : Nested CharSet :=
  let union := Nested.join .union .empty s.items
  match s.before with
  | none => union
  | some (left, o) => left.both union o.apply

/-- The set behind an operation. -/
def operate (s : OpenSet) (o : SetOperation) : OpenSet :=
  { s with before := some (s.contents, o), items := [] }

/-- The whole set, if it ends here. -/
def close (s : OpenSet) : Nested CharSet := s.contents.wrap (complIf s.negated)

end OpenSet

/-- Reads a set to its end, inside of others, the innermost first, and gives what follows. -/
def readSet? (s : OpenSet) (outer : List OpenSet) (cs : List Char) :
    Option (Nested CharSet × List Char) :=
  match h : setToken? cs with
  | none => none
  | some (token, rest) =>
    have : rest.length < cs.length := length_of_setToken? h
    match token with
    | .item i => readSet? (s.add ⟨i, 0⟩) outer rest
    | .openSet negated items => readSet? (.ofItems negated items) (s :: outer) rest
    | .operation o => readSet? (s.operate o) outer rest
    | .closeSet =>
      match outer with
      | [] => some (s.close, rest)
      | t :: outer => readSet? (t.add s.close) outer rest
termination_by cs.length

theorem length_of_readSet? {s : OpenSet} {outer : List OpenSet} {cs rest : List Char}
    {n : Nested CharSet} (h : readSet? s outer cs = some (n, rest)) : rest.length < cs.length := by
  fun_induction readSet? s outer cs with
  | case1 => cases h
  | case2 _ _ _ _ _ _ _ hlen ih => exact Nat.lt_trans (ih h) hlen
  | case3 _ _ _ _ _ _ _ _ hlen ih => exact Nat.lt_trans (ih h) hlen
  | case4 _ _ _ _ _ _ _ hlen ih => exact Nat.lt_trans (ih h) hlen
  | case5 _ _ _ _ _ hlen =>
    cases h
    exact hlen
  | case6 _ _ _ _ _ _ _ hlen ih => exact Nat.lt_trans (ih h) hlen

/-- The set written behind an opening bracket, and what follows. -/
def charSet? (cs : List Char) : Option (Nested CharSet × List Char) :=
  let (items, rest) := firstItems (dropCaret cs)
  readSet? (.ofItems (hasCaret cs) items) [] rest

theorem length_of_charSet? {cs rest : List Char} {n : Nested CharSet}
    (h : charSet? cs = some (n, rest)) : rest.length < cs.length :=
  Nat.lt_of_lt_of_le (length_of_readSet? h)
    (Nat.le_trans (length_of_firstItems _) (length_of_dropCaret cs))

end DemandAlias.Text
