import DemandAlias.Json.Basic

/-!
# Numbers in JSON

The parts of a number literal, and its value. An integer of 64 bits is read exactly.
Any other number is kept as it was written, unless it is too large for binary
floating point with 53 significant bits and exponents below 1024.

How large a number is, is found in two steps, each rounded to the nearest: as many
digits as fit in 64 bits are read as an integer, the *significand*, which is then
multiplied by the power of ten that makes up for the decimal point, the exponent and
the digits left out.

* `NumberLiteral.parse?`: the parts of a literal;
* `NumberLiteral.isTooLarge`: whether a number is beyond the range of floating point;
* `Json.number?`: the value of a literal.
-/

namespace DemandAlias.Json

/-! ### Rounding -/

/-- The number nearest to `n` with no more than 53 significant bits, and of two such
    numbers the one with the even significand. -/
def roundToBinary64 (n : Nat) : Nat :=
  let unit := Nat.pow 2 (n.log2 + 1 - 53)
  let quotient := n / unit
  let remainder := n % unit
  if unit < 2 * remainder ∨ (unit = 2 * remainder ∧ quotient % 2 = 1) then (quotient + 1) * unit
  else quotient * unit

/-- The least power of two that floating point cannot represent. -/
def binary64Limit : Nat := Nat.pow 2 1024

/-- The greatest power of ten below `binary64Limit` is that of this exponent. -/
def maxExponent : Nat := 308

/-- Whether `significand` times a power of ten is beyond the range of floating point. -/
def overflows (significand : Nat) (exponent : Int) : Bool :=
  match exponent with
  | .negSucc _ => false
  | .ofNat exponent =>
    significand != 0 && (maxExponent < exponent || binary64Limit ≤
      roundToBinary64 (roundToBinary64 significand * roundToBinary64 (Nat.pow 10 exponent)))

/-! ### Literals -/

/-- The value of a decimal digit. -/
def digit (c : Char) : Nat := c.toNat - '0'.toNat

/-- The number written by digits, of which there must be one. -/
def natural? (cs : List Char) : Option Nat :=
  if !cs.isEmpty && cs.all Char.isDigit then
    some (cs.foldl (fun n c => n * 10 + digit c) 0)
  else none

/-- The parts of a number literal. -/
structure NumberLiteral where
  /-- Whether there is a minus sign. -/
  negative : Bool
  /-- The digits before the decimal point. -/
  whole : List Char
  /-- The digits after the decimal point, if there is one. -/
  fraction : Option (List Char)
  /-- The exponent, if there is one. -/
  exponent : Option Int
  deriving Inhabited

namespace NumberLiteral

/-- The exponent a literal ends with, if it has one. -/
def exponent? : List Char → Option (Option Int)
  | [] => some none
  | c :: cs =>
    if c = 'e' ∨ c = 'E' then
      match cs with
      | '+' :: cs => (natural? cs).map fun n => some (n : Int)
      | '-' :: cs => (natural? cs).map fun n => some (-(n : Int))
      | cs => (natural? cs).map fun n => some (n : Int)
    else none

/-- The fraction and the exponent a literal ends with, each if it has one. -/
def fraction? : List Char → Option (Option (List Char) × Option Int)
  | '.' :: cs =>
    let digits := cs.takeWhile Char.isDigit
    if digits.isEmpty then none
    else (exponent? (cs.dropWhile Char.isDigit)).map fun e => (some digits, e)
  | cs => (exponent? cs).map fun e => (none, e)

/-- Whether digits may stand before a decimal point: there are some, and the first is
    zero only if it is the only one. -/
def isWhole : List Char → Bool
  | [] => false
  | ['0'] => true
  | c :: _ => c != '0'

/-- The parts of a literal behind its sign. -/
def unsigned? (negative : Bool) (cs : List Char) : Option NumberLiteral := do
  let whole := cs.takeWhile Char.isDigit
  let (fraction, exponent) ← fraction? (cs.dropWhile Char.isDigit)
  if isWhole whole then some { negative, whole, fraction, exponent } else none

/-- The parts of a literal. -/
def parse? : List Char → Option NumberLiteral
  | '-' :: cs => unsigned? true cs
  | cs => unsigned? false cs

/-- Puts digits behind a significand as long as it fits in 64 bits, and counts the digits left. -/
def takeDigits (significand : Nat) : List Char → Nat × Nat
  | [] => (significand, 0)
  | c :: cs =>
    let longer := significand * 10 + digit c
    if longer < UInt64.size then takeDigits longer cs else (significand, cs.length + 1)

/-- Whether the number is beyond the range of floating point. -/
def isTooLarge (l : NumberLiteral) : Bool :=
  let fraction := l.fraction.getD []
  let (significand, wholeLeft) := takeDigits 0 l.whole
  let (significand, fractionLeft) := takeDigits significand fraction
  let fractionTaken := fraction.length - fractionLeft
  overflows significand (l.exponent.getD 0 + wholeLeft - fractionTaken)

/-- The integer a literal without fraction and exponent stands for, if it fits in 64
    bits, with or without a sign. Negative zero is no integer. -/
def integer? (l : NumberLiteral) : Option Int :=
  if l.fraction.isSome || l.exponent.isSome then none
  else
    let magnitude := l.whole.foldl (fun n c => n * 10 + digit c) 0
    if l.negative then
      if 0 < magnitude ∧ Int64.minValue.toInt ≤ -(magnitude : Int) then some (-(magnitude : Int))
      else none
    else if magnitude < UInt64.size then some magnitude
    else none

end NumberLiteral

/-- The value of a number literal. -/
def number? (cs : List Char) : Option Json :=
  (NumberLiteral.parse? cs).map fun l =>
    match l.integer? with
    | some value => .int value
    | none => if l.isTooLarge then .illegible else .real (String.ofList cs)

end DemandAlias.Json
