import DemandAlias.Json.Number

/-!
# Reading JSON

A text is first cut into tokens, and the tokens are then taken one at a time by a
machine that keeps the arrays and objects still open on a stack. Whatever the
text, both end: the tokens get shorter texts to work on, and the machine moves
once per token.

* `Token.scan?`: the tokens of a text;
* `Json.parse?`: the value written by a text, and nothing else after it.
-/

namespace DemandAlias.Json

/-! ### Strings -/

/-- The raw contents of a string literal after its opening quote, and what follows
    its closing quote. Control characters must not stand in a literal. -/
def scanString : List Char → Option (List Char × List Char)
  | [] => none
  | c :: cs =>
    if c = '"' then some ([], cs)
    else if c.toNat < 0x20 then none
    else if c = '\\' then
      match cs with
      | [] => none
      | d :: cs => (scanString cs).map fun (raw, rest) => (c :: d :: raw, rest)
    else (scanString cs).map fun (raw, rest) => (c :: raw, rest)

theorem length_of_scanString {cs raw rest : List Char} (h : scanString cs = some (raw, rest)) :
    rest.length < cs.length := by
  fun_induction scanString cs generalizing raw with
  | case1 => cases h
  | case2 =>
    cases h
    simp
  | case3 | case4 => cases h
  | case5 _ _ _ _ ih =>
    obtain ⟨⟨raw', rest'⟩, hs, he⟩ := Option.map_eq_some_iff.1 h
    cases he
    have := ih hs
    simp only [List.length_cons]
    omega
  | case6 _ _ _ _ _ ih =>
    obtain ⟨⟨raw', rest'⟩, hs, he⟩ := Option.map_eq_some_iff.1 h
    cases he
    have := ih hs
    simp only [List.length_cons]
    omega

/-- The value of a hexadecimal digit. -/
def hexDigit? (c : Char) : Option Nat :=
  if '0' ≤ c ∧ c ≤ '9' then some (c.toNat - '0'.toNat)
  else if 'a' ≤ c ∧ c ≤ 'f' then some (c.toNat - 'a'.toNat + 10)
  else if 'A' ≤ c ∧ c ≤ 'F' then some (c.toNat - 'A'.toNat + 10)
  else none

/-- The value of four hexadecimal digits. -/
def hexUnit? (a b c d : Char) : Option Nat := do
  let a ← hexDigit? a
  let b ← hexDigit? b
  let c ← hexDigit? c
  let d ← hexDigit? d
  some (((a * 16 + b) * 16 + c) * 16 + d)

/-- What a letter stands for after a backslash. -/
def escaped? (c : Char) : Option Char :=
  match c with
  | '"' | '\\' | '/' => some c
  | 'b' => some '\x08'
  | 'f' => some '\x0c'
  | 'n' => some '\n'
  | 'r' => some '\r'
  | 't' => some '\t'
  | _ => none

/-- The units of the raw contents of a string literal: code points, and for
    characters given by four digits the halves of surrogate pairs as well. -/
def units? : List Char → Option (List Nat)
  | [] => some []
  | '\\' :: 'u' :: a :: b :: c :: d :: rest => do
    let unit ← hexUnit? a b c d
    let units ← units? rest
    some (unit :: units)
  | '\\' :: e :: rest => do
    let unit ← escaped? e
    let units ← units? rest
    some (unit.toNat :: units)
  | c :: rest => do
    let units ← units? rest
    some (c.toNat :: units)

/-- Whether a unit is the first half of a surrogate pair. -/
def isHighSurrogate (unit : Nat) : Bool := 0xd800 ≤ unit && unit < 0xdc00

/-- Whether a unit is the second half of a surrogate pair. -/
def isLowSurrogate (unit : Nat) : Bool := 0xdc00 ≤ unit && unit < 0xe000

/-- The characters of units, joining surrogate pairs; halves do not stand alone. -/
def joinSurrogates? : List Nat → Option (List Char)
  | [] => some []
  | high :: rest =>
    if isHighSurrogate high then
      match rest with
      | low :: rest =>
        if isLowSurrogate low then
          (joinSurrogates? rest).map
            (Char.ofNat (0x10000 + (high - 0xd800) * 0x400 + (low - 0xdc00)) :: ·)
        else none
      | [] => none
    else if isLowSurrogate high then none
    else (joinSurrogates? rest).map (Char.ofNat high :: ·)

/-- The text of the raw contents of a string literal, if they are well-formed;
    nothing if half of a surrogate pair stands alone in it. -/
def unescape? (raw : List Char) : Option (Option String) :=
  (units? raw).map fun units => (joinSurrogates? units).map String.ofList

/-! ### Tokens -/

/-- A token: a string, any other value without parts, or a mark. -/
inductive Token where
  /-- A string, nothing if it cannot be read. -/
  | string (text : Option String)
  | atom (value : Json)
  | openArray
  | closeArray
  | openObject
  | closeObject
  | comma
  | colon
  deriving Inhabited

namespace Token

/-- The mark a character is. -/
def mark? : Char → Option Token
  | '[' => some .openArray
  | ']' => some .closeArray
  | '\x7b' => some .openObject
  | '\x7d' => some .closeObject
  | ',' => some .comma
  | ':' => some .colon
  | _ => none

/-- Whether a character is left out between tokens. -/
def isBlank (c : Char) : Bool := c == ' ' || c == '\n' || c == '\t' || c == '\r'

/-- Whether a character may stand in a word: a number or one of the three names. -/
def isWordChar (c : Char) : Bool := c.isAlphanum || c == '+' || c == '-' || c == '.'

/-- The value a word stands for. -/
def word? (cs : List Char) : Option Json :=
  if cs = ['n', 'u', 'l', 'l'] then some .null
  else if cs = ['t', 'r', 'u', 'e'] then some (.bool true)
  else if cs = ['f', 'a', 'l', 's', 'e'] then some (.bool false)
  else number? cs

/-- The tokens of a text. -/
def scan? : List Char → Option (List Token)
  | [] => some []
  | c :: cs =>
    if isBlank c then scan? cs
    else if c = '"' then
      match h : scanString cs with
      | none => none
      | some (raw, rest) => do
        have : rest.length < cs.length := length_of_scanString h
        let text ← unescape? raw
        let tokens ← scan? rest
        some (.string text :: tokens)
    else match mark? c with
      | some mark => (scan? cs).map (mark :: ·)
      | none =>
        if isWordChar c then do
          have : (cs.dropWhile isWordChar).length ≤ cs.length :=
            (List.dropWhile_suffix isWordChar).length_le
          let value ← word? (c :: cs.takeWhile isWordChar)
          let tokens ← scan? (cs.dropWhile isWordChar)
          some (.atom value :: tokens)
        else none
termination_by cs => cs.length
decreasing_by
  all_goals simp only [List.length_cons]; omega

end Token

/-! ### Values -/

/-- An array or object still open. -/
inductive Frame where
  /-- An array, with the elements before the next one, the latest first. -/
  | elements (before : List Json)
  /-- An object, with the members before the next one, the latest first, and the
      key of the next one; nothing if a key cannot be read. -/
  | member (before : Option (List (String × Json))) (key : Option String)

/-- What a reader waits for, inside of the arrays and objects still open, the innermost first. -/
inductive Expected where
  /-- A value. -/
  | value (frames : List Frame)
  /-- The first element of an array, or its end. -/
  | elementOrEnd (frames : List Frame)
  /-- The first key of an object, or its end. -/
  | keyOrEnd (frames : List Frame)
  /-- The next key of an object. -/
  | key (before : Option (List (String × Json))) (frames : List Frame)
  /-- The colon after a key. -/
  | colon (before : Option (List (String × Json))) (key : Option String) (frames : List Frame)
  /-- After a value, a comma or the end of what it is part of. -/
  | commaOrEnd (value : Json) (frames : List Frame)

namespace Expected

/-- The members with one more, the latest first, as long as keys can be read. -/
def addMember (before : Option (List (String × Json))) (key : Option String) (value : Json) :
    Option (List (String × Json)) := do
  some ((← key, value) :: (← before))

/-- The object with these members, the latest first. -/
def ofMembers : Option (List (String × Json)) → Json
  | some members => .obj members.reverse
  | none => .illegible

/-- Takes a token where a value may begin. -/
def beginValue (frames : List Frame) : Token → Option Expected
  | .string (some text) => some (.commaOrEnd (.str text) frames)
  | .string none => some (.commaOrEnd .illegible frames)
  | .atom v => some (.commaOrEnd v frames)
  | .openArray => some (.elementOrEnd frames)
  | .openObject => some (.keyOrEnd frames)
  | _ => none

/-- Takes one token, unless it is out of place. -/
def take : Expected → Token → Option Expected
  | .value frames, token => beginValue frames token
  | .elementOrEnd frames, .closeArray => some (.commaOrEnd (.arr []) frames)
  | .elementOrEnd frames, token => beginValue (.elements [] :: frames) token
  | .keyOrEnd frames, .closeObject => some (.commaOrEnd (.obj []) frames)
  | .keyOrEnd frames, .string k => some (.colon (some []) k frames)
  | .key before frames, .string k => some (.colon before k frames)
  | .colon before k frames, .colon => some (.value (.member before k :: frames))
  | .commaOrEnd v (.elements before :: frames), .comma =>
    some (.value (.elements (v :: before) :: frames))
  | .commaOrEnd v (.elements before :: frames), .closeArray =>
    some (.commaOrEnd (.arr (v :: before).reverse) frames)
  | .commaOrEnd v (.member before k :: frames), .comma =>
    some (.key (addMember before k v) frames)
  | .commaOrEnd v (.member before k :: frames), .closeObject =>
    some (.commaOrEnd (ofMembers (addMember before k v)) frames)
  | _, _ => none

end Expected

/-- The value written by a text, if it is one value and nothing else. -/
def parse? (text : String) : Option Json := do
  let tokens ← Token.scan? text.toList
  match ← tokens.foldlM Expected.take (.value []) with
  | .commaOrEnd value [] => some value
  | _ => none

end DemandAlias.Json
