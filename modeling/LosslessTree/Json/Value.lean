import LosslessTree.Json.Raw

/-!
# `Json.Value` — JSON values, read and written

A value is what a text means: strings are texts, numbers are integers of 64 bits or else kept as
they are written. The members of an object stay in their order, and a name may come twice.

`Raw.settle` gives a text its value, within a bound on the nesting of arrays and objects. `Json.chars`
writes a value without blanks and `Json.prettyChars` over several lines.
-/

namespace LosslessTree

/-- A JSON value. -/
inductive Json where
  | null
  | bool (b : Bool)
  | integer (n : Int)
  | real (n : Json.Numeral)
  | string (s : String)
  | array (items : List Json)
  | object (members : List (String × Json))

namespace Json

instance : Inhabited Json := ⟨.null⟩

/-! ## From text to value -/

/-- How deep arrays and objects of a text may be nested. -/
def maxDepth : Nat := 127

/-- A code in the first half of a surrogate pair. -/
def isLeadCode (n : Nat) : Bool := decide (0xD800 ≤ n) && decide (n ≤ 0xDBFF)

/-- A code in the second half of a surrogate pair. -/
def isTrailCode (n : Nat) : Bool := decide (0xDC00 ≤ n) && decide (n ≤ 0xDFFF)

/-- The character of a surrogate pair. -/
def pairChar (lead trail : Nat) : Char :=
  Char.ofNat (0x10000 + (lead - 0xD800) * 0x400 + (trail - 0xDC00))

/-- The characters of a string text; half a surrogate pair has none. -/
def decodePieces : List Piece → Option (List Char)
  | [] => some []
  | .char c :: rest => (decodePieces rest).map (c :: ·)
  | .code lead :: .code trail :: rest =>
    if isLeadCode lead then
      if isTrailCode trail then (decodePieces rest).map (pairChar lead trail :: ·) else none
    else if isTrailCode lead then none
    else (decodePieces (.code trail :: rest)).map (Char.ofNat lead :: ·)
  | .code n :: rest =>
    if isLeadCode n || isTrailCode n then none
    else (decodePieces rest).map (Char.ofNat n :: ·)

/-- The text of a string. -/
def decodeText (pieces : List Piece) : Option String := (decodePieces pieces).map String.ofList

/-- The value of a number, if some double is near it. -/
def Numeral.settle (n : Numeral) : Option Json :=
  match n.integer? with
  | some i => some (.integer i)
  | none => if n.isFinite then some (.real n) else none

mutual

/-- The value of a text whose arrays and objects are nested at most `depth` deep. -/
def Raw.settle (depth : Nat) : Raw → Option Json
  | .null => some .null
  | .bool b => some (.bool b)
  | .number n => n.settle
  | .string pieces => (decodeText pieces).map .string
  | .array items =>
    match depth with
    | 0 => none
    | depth + 1 => (settleItems depth items).map .array
  | .object members =>
    match depth with
    | 0 => none
    | depth + 1 => (settleMembers depth members).map .object

/-- The values of the elements of an array. -/
def settleItems (depth : Nat) : List Raw → Option (List Json)
  | [] => some []
  | item :: rest => do
    let value ← item.settle depth
    let values ← settleItems depth rest
    return value :: values

/-- The values of the members of an object. -/
def settleMembers (depth : Nat) : List (List Piece × Raw) → Option (List (String × Json))
  | [] => some []
  | (name, member) :: rest => do
    let name ← decodeText name
    let value ← member.settle depth
    let values ← settleMembers depth rest
    return (name, value) :: values

end

/-! ## From value to text -/

/-- The digit for a number below 16. -/
def hexChar (n : Nat) : Char := Nat.digitChar n

/-- The written form of a character inside a string. -/
def escapeChar (c : Char) : List Char :=
  if c = '"' then ['\\', '"']
  else if c = '\\' then ['\\', '\\']
  else if c = '\x08' then ['\\', 'b']
  else if c = '\x0c' then ['\\', 'f']
  else if c = '\n' then ['\\', 'n']
  else if c = '\r' then ['\\', 'r']
  else if c = '\t' then ['\\', 't']
  else if c.toNat < 0x20 then
    ['\\', 'u', '0', '0', hexChar (c.toNat / 16), hexChar (c.toNat % 16)]
  else [c]

/-- A string in quotes. -/
def stringChars (s : List Char) : List Char := '"' :: s.flatMap escapeChar ++ ['"']

/-- The digits of an integer, with a minus sign if it is negative. -/
def integerChars (n : Int) : List Char :=
  if n < 0 then '-' :: Nat.toDigits 10 n.natAbs else Nat.toDigits 10 n.natAbs

mutual

/-- The text of a value without blanks. -/
def chars : Json → List Char
  | .null => ['n', 'u', 'l', 'l']
  | .bool true => ['t', 'r', 'u', 'e']
  | .bool false => ['f', 'a', 'l', 's', 'e']
  | .integer n => integerChars n
  | .real n => n.chars
  | .string s => stringChars s.toList
  | .array items => '[' :: itemsChars items ++ [']']
  | .object members => '{' :: membersChars members ++ ['}']

/-- The elements of an array, with commas between them. -/
def itemsChars : List Json → List Char
  | [] => []
  | [item] => item.chars
  | item :: rest => item.chars ++ ',' :: itemsChars rest

/-- The members of an object, with commas between them. -/
def membersChars : List (String × Json) → List Char
  | [] => []
  | [(name, value)] => stringChars name.toList ++ ':' :: value.chars
  | (name, value) :: rest =>
    stringChars name.toList ++ ':' :: value.chars ++ ',' :: membersChars rest

end

/-- The text of a value without blanks. -/
def text (j : Json) : String := String.ofList j.chars

/-- A line end and two blanks for each level. -/
def indent (level : Nat) : List Char := '\n' :: List.replicate (2 * level) ' '

mutual

/-- The text of a value over several lines, at a level of indentation. -/
def prettyChars (level : Nat) : Json → List Char
  | .array [] => ['[', ']']
  | .array (item :: rest) =>
    '[' :: prettyItems (level + 1) (item :: rest) ++ indent level ++ [']']
  | .object [] => ['{', '}']
  | .object (member :: rest) =>
    '{' :: prettyMembers (level + 1) (member :: rest) ++ indent level ++ ['}']
  | j => j.chars

/-- The elements of an array, each on lines of its own. -/
def prettyItems (level : Nat) : List Json → List Char
  | [] => []
  | [item] => indent level ++ item.prettyChars level
  | item :: rest => indent level ++ item.prettyChars level ++ ',' :: prettyItems level rest

/-- The members of an object, each on lines of its own. -/
def prettyMembers (level : Nat) : List (String × Json) → List Char
  | [] => []
  | [(name, value)] =>
    indent level ++ stringChars name.toList ++ ':' :: ' ' :: value.prettyChars level
  | (name, value) :: rest =>
    indent level ++ stringChars name.toList ++ ':' :: ' ' :: value.prettyChars level ++
      ',' :: prettyMembers level rest

end

/-- The text of a value over several lines. -/
def pretty (j : Json) : String := String.ofList (j.prettyChars 0)

end Json

end LosslessTree
