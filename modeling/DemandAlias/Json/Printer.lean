import DemandAlias.Json.Basic

/-!
# Writing JSON

The text of a value, without blanks between its tokens. An illegible value is written
as half of a surrogate pair.
-/

namespace DemandAlias.Json

/-- How `c` is written inside a string literal. -/
def escape (c : Char) : List Char :=
  if c = '"' then ['\\', '"']
  else if c = '\\' then ['\\', '\\']
  else if c.toNat < 0x20 then
    let digits := Nat.toDigits 16 c.toNat
    ['\\', 'u'] ++ List.replicate (4 - digits.length) '0' ++ digits
  else [c]

/-- The string literal of a text. -/
def literal (text : String) : String :=
  String.ofList ('"' :: text.toList.flatMap escape ++ ['"'])

mutual

/-- Writes a value behind `out`. -/
def write (out : String) : Json → String
  | .null => out ++ "null"
  | .bool true => out ++ "true"
  | .bool false => out ++ "false"
  | .int value => out ++ toString value
  | .real digits => out ++ digits
  | .str text => out ++ literal text
  | .arr elements => writeElements (out ++ "[") "" elements ++ "]"
  | .obj members => writeMembers (out ++ "\x7b") "" members ++ "\x7d"
  | .illegible => out ++ "\"\\ud800\""

/-- Writes the elements of an array behind `out`, `separator` before the first and
    a comma before each of the others. -/
def writeElements (out separator : String) : List Json → String
  | [] => out
  | value :: rest => writeElements (write (out ++ separator) value) "," rest

/-- Writes the members of an object behind `out`, `separator` before the first and
    a comma before each of the others. -/
def writeMembers (out separator : String) : List (String × Json) → String
  | [] => out
  | (key, value) :: rest =>
    writeMembers (write (out ++ separator ++ literal key ++ ":") value) "," rest

end

/-- The text of a value. -/
def render (value : Json) : String := write "" value

end DemandAlias.Json
