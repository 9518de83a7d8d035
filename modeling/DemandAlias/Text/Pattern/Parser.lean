import DemandAlias.Text.CharSet.Parser
import DemandAlias.Text.Pattern.Basic

/-!
# Reading patterns

A text is first cut into tokens, and the tokens are then taken one at a time by a
machine that keeps the groups still open on a stack.

* `PatternToken.scan?`: the tokens of a text;
* `Pattern.parse?`: the pattern written by a text.
-/

namespace DemandAlias.Text

/-! ### Tokens -/

/-- A token of a written pattern. -/
inductive PatternToken where
  | atom (p : Nested Pattern)
  | openGroup
  | closeGroup
  | bar
  | star
  | plus
  | optional
  deriving Inhabited

namespace PatternToken

/-- A part without parts. -/
def leaf (p : Pattern) : PatternToken := .atom ⟨p, 0⟩

/-- What is found where a character stands behind a backslash. -/
def ofEscaped? (c : Char) : Option PatternToken :=
  if c = 'A' then some (leaf .start)
  else if c = 'z' then some (leaf .stop)
  else (escaped? c).map fun c => leaf (.char (.single c))

/-- The token a character is that is not escaped and opens nothing. -/
def ofChar : Char → PatternToken
  | '.' => leaf (.char .notNewline)
  | '^' => leaf .start
  | '$' => leaf .stop
  | '(' => .openGroup
  | ')' => .closeGroup
  | '|' => .bar
  | '*' => .star
  | '+' => .plus
  | '?' => .optional
  | c => leaf (.char (.single c))

/-- The tokens of a written pattern. -/
def scan? : List Char → Option (List PatternToken)
  | [] => some []
  | '\\' :: [] => none
  | '\\' :: c :: cs => do
    let token ← ofEscaped? c
    let tokens ← scan? cs
    some (token :: tokens)
  | '[' :: cs =>
    match h : charSet? cs with
    | none => none
    | some (s, rest) => do
      have : rest.length < cs.length := length_of_charSet? h
      let tokens ← scan? rest
      some (.atom ⟨.char s.value, s.depth⟩ :: tokens)
  | '(' :: '?' :: ':' :: cs => (scan? cs).map (.openGroup :: ·)
  | '\x7b' :: _ => none
  | c :: cs => (scan? cs).map (ofChar c :: ·)
termination_by cs => cs.length
decreasing_by
  all_goals simp only [List.length_cons]; omega

end PatternToken

/-! ### Groups -/

/-- A group being read: the alternatives before the one being read, and the parts of
    that one, the latest first. -/
structure OpenGroup where
  alternatives : List (Nested Pattern) := []
  parts : List (Nested Pattern) := []
  deriving Inhabited

namespace OpenGroup

/-- The alternative being read. -/
def alternative (g : OpenGroup) : Nested Pattern := Nested.join .seq .nothing g.parts

/-- The pattern of the group, if it ends here. -/
def pattern (g : OpenGroup) : Nested Pattern :=
  Nested.join .alt .nothing (g.alternative :: g.alternatives)

/-- The group with one more part. -/
def add (g : OpenGroup) (p : Nested Pattern) : OpenGroup := { g with parts := p :: g.parts }

end OpenGroup

/-- A pattern being read: the group being read, the groups it is inside of, the
    innermost first, and whether a repetition was read last. -/
structure PatternReader where
  group : OpenGroup := {}
  outer : List OpenGroup := []
  repeated : Bool := false
  deriving Inhabited

namespace PatternReader

/-- Repeats the part read last as `f` says, if there is one. -/
def repeatLast (r : PatternReader) (f : Pattern → Pattern) : Option PatternReader :=
  match r.group.parts with
  | [] => none
  | p :: parts =>
    some { r with group := { r.group with parts := p.wrap f :: parts }, repeated := true }

/-- Takes one token, unless it is out of place. A question mark right after a
    repetition asks for the shortest find, which finds the same texts. -/
def take (r : PatternReader) : PatternToken → Option PatternReader
  | .atom p => some { r with group := r.group.add p, repeated := false }
  | .openGroup => some { group := {}, outer := r.group :: r.outer }
  | .closeGroup =>
    match r.outer with
    | [] => none
    | group :: outer => some { group := group.add (r.group.pattern.wrap id), outer }
  | .bar =>
    some { r with
      group := { alternatives := r.group.alternative :: r.group.alternatives }
      repeated := false }
  | .star => r.repeatLast .star
  | .plus => r.repeatLast .plus
  | .optional =>
    if r.repeated then some { r with repeated := false }
    else r.repeatLast .optional

end PatternReader

/-! ### Patterns -/

/-- How many parts of a pattern may be inside of each other. -/
def Pattern.maxDepth : Nat := 250

/-- The pattern written by a text. -/
def Pattern.parse? (text : String) : Option Pattern := do
  let tokens ← PatternToken.scan? text.toList
  let reader ← tokens.foldlM PatternReader.take {}
  match reader.outer with
  | [] =>
    let pattern := reader.group.pattern
    if pattern.depth ≤ Pattern.maxDepth then some pattern.value else none
  | _ => none

end DemandAlias.Text
