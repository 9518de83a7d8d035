import DemandAlias.Text.Extending
import DemandAlias.Text.Invisible

/-!
# Quoted text

Text of a program (string constants, map keys) is shown between double quotes.
Quotes and backslashes inside are preceded by a backslash, common control
characters have letters of their own, and whatever could not be seen on its own is
written as its code point in hexadecimal, between braces.
-/

namespace DemandAlias.Text

/-- How `c` is written inside quoted text. -/
def escape (c : Char) : List Char :=
  if c = '"' then ['\\', '"']
  else if c = '\\' then ['\\', '\\']
  else if c = '\n' then ['\\', 'n']
  else if c = '\t' then ['\\', 't']
  else if c = '\r' then ['\\', 'r']
  else if c = '\x00' then ['\\', '0']
  else if isExtending c || isInvisible c then
    ['\\', 'u', '\x7b'] ++ Nat.toDigits 16 c.toNat ++ ['\x7d']
  else [c]

/-- The text `s` between double quotes. -/
def quoted (s : String) : String :=
  String.ofList ('"' :: s.toList.flatMap escape ++ ['"'])

/-- Texts with a comma between each and the next. -/
def commaSeparated (texts : List String) : String :=
  ", ".intercalate texts

end DemandAlias.Text
