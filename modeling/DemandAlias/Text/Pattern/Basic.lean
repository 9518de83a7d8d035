import DemandAlias.Text.CharSet.Basic

/-!
# Patterns

Patterns over text: single characters and sets of them, the start and the end of
the text, sequences, alternatives and repetitions.

Whether a pattern occurs in a text is decided by *marks*. A character of a pattern is
marked if it may have taken the last character of the text read so far. With the next
character of the text, the marks move on to the characters of the pattern that may
come next, while new finds may begin at any place. The pattern has been found once a
mark needs to move no further. There are never more marks than characters in the
pattern, so the effort for a text grows with its length only.

* `Pattern.advance`: moves the marks on by one character;
* `Pattern.occursIn`: whether a pattern occurs somewhere in a text.
-/

namespace DemandAlias.Text

/-- A pattern. -/
inductive Pattern where
  /-- Found everywhere, needing no character. -/
  | nothing
  /-- One character of a set, and whether it is marked. -/
  | char (s : CharSet) (marked : Bool := false)
  /-- The start of the text. -/
  | start
  /-- The end of the text. -/
  | stop
  | seq (a b : Pattern)
  | alt (a b : Pattern)
  /-- Any number of times, one after the other. -/
  | star (a : Pattern)
  /-- Any number of times but none, one after the other. -/
  | plus (a : Pattern)
  deriving DecidableEq, Inhabited

namespace Pattern

/-- Once or not at all. -/
def optional (a : Pattern) : Pattern := .alt a .nothing

/-- Whether the pattern is found without taking a character, at a place that is or
    is not the start and the end of the text. -/
def needsNothing (atStart atEnd : Bool) : Pattern → Bool
  | .char _ _ => false
  | .nothing | .star _ => true
  | .start => atStart
  | .stop => atEnd
  | .seq a b => a.needsNothing atStart atEnd && b.needsNothing atStart atEnd
  | .alt a b => a.needsNothing atStart atEnd || b.needsNothing atStart atEnd
  | .plus a => a.needsNothing atStart atEnd

/-- Whether a mark needs to move no further, at a place that is or is not the start
    and the end of the text. -/
def isComplete (atStart atEnd : Bool) : Pattern → Bool
  | .nothing | .start | .stop => false
  | .char _ marked => marked
  | .seq a b =>
    a.isComplete atStart atEnd && b.needsNothing atStart atEnd || b.isComplete atStart atEnd
  | .alt a b => a.isComplete atStart atEnd || b.isComplete atStart atEnd
  | .star a | .plus a => a.isComplete atStart atEnd

/-- Moves the marks on as the pattern takes `c`, at a place that is or is not the
    start of the text; `entered` says whether the pattern may begin with `c`. -/
def advance (atStart : Bool) (c : Char) (entered : Bool) : Pattern → Pattern
  | .nothing => .nothing
  | .start => .start
  | .stop => .stop
  | .char s _ => .char s (entered && s.contains c)
  | .seq a b =>
    let passed := entered && a.needsNothing atStart false || a.isComplete atStart false
    .seq (a.advance atStart c entered) (b.advance atStart c passed)
  | .alt a b => .alt (a.advance atStart c entered) (b.advance atStart c entered)
  | .star a => .star (a.advance atStart c (entered || a.isComplete atStart false))
  | .plus a => .plus (a.advance atStart c (entered || a.isComplete atStart false))

/-- Whether a find ends at a place that is or is not the start and the end of the text. -/
def isFound (atStart atEnd : Bool) (p : Pattern) : Bool :=
  p.needsNothing atStart atEnd || p.isComplete atStart atEnd

/-- Whether a find ends somewhere in `text`, which begins or does not begin at the
    start of the whole text. -/
def occursFrom (atStart : Bool) (p : Pattern) : List Char → Bool
  | [] => p.isFound atStart true
  | c :: text => p.isFound atStart false || occursFrom false (p.advance atStart c true) text

/-- Whether the pattern is found somewhere in `text`. -/
def occursIn (p : Pattern) (text : String) : Bool := p.occursFrom true text.toList

end Pattern

end DemandAlias.Text
