import LosslessTree.Json.Numeral

/-!
# `Json.Raw` — the grammar of JSON texts

Reading a text goes in two steps. The first, here, is the grammar alone: it finds the structure of
the text and keeps strings and numbers as they are written. The second step, `Raw.settle` in
`Json.Value`, gives them their values and is where a text can be nested too deep, a number too large
or half of a surrogate pair be missing. The two are apart because a reader that skips a part of a
text asks only for the first.

Blanks are space, tab, line feed and carriage return. There are no comments, no trailing commas, no
leading zeros, and no control characters inside strings.

## Contents
- **`Piece`**, a character of a string, or a code written `\uXXXX`.
- **`Raw`**, the structure of a text.
- **`readValue`**, reads one value from the front of a text; `Raw.read` hides its fuel.
-/

namespace LosslessTree.Json

/-- A part of a string text. -/
inductive Piece where
  /-- A character, or an escape that stands for one. -/
  | char (c : Char)
  /-- A code given by four hexadecimal digits. -/
  | code (n : Nat)
  deriving DecidableEq, Repr

/-- The structure of a JSON text. -/
inductive Raw where
  | null
  | bool (b : Bool)
  | number (n : Numeral)
  | string (pieces : List Piece)
  | array (items : List Raw)
  | object (members : List (List Piece × Raw))

instance : Inhabited Raw := ⟨.null⟩

/-! ## Blanks, numbers and strings -/

/-- Whether a character is a blank between tokens. -/
def isGap (c : Char) : Bool := c == ' ' || c == '\t' || c == '\n' || c == '\r'

/-- The text without the blanks in front. -/
def skipGap (text : List Char) : List Char := text.dropWhile isGap

/-- Digits in front of a text, at least one. -/
def readDigits (text : List Char) : Option (List Char × List Char) :=
  match text.span Char.isDigit with
  | ([], _) => none
  | (digits, rest) => some (digits, rest)

/-- The digits before the point: no zero in front of other digits. -/
def readWhole (text : List Char) : Option (List Char × List Char) :=
  match readDigits text with
  | some ('0' :: _ :: _, _) => none
  | result => result

/-- A point and digits, if there is a point. -/
def readFraction : List Char → Option (List Char × List Char)
  | '.' :: rest => readDigits rest
  | rest => some ([], rest)

/-- An exponent, if there is one. -/
def readExponent : List Char → Option (Option (Bool × List Char) × List Char)
  | 'e' :: rest | 'E' :: rest =>
    let (negative, rest) := match rest with
      | '-' :: rest => (true, rest)
      | '+' :: rest => (false, rest)
      | rest => (false, rest)
    (readDigits rest).map fun (digits, rest) => (some (negative, digits), rest)
  | rest => some (none, rest)

/-- A number in front of a text. -/
def readNumeral (text : List Char) : Option (Numeral × List Char) := do
  let (negative, rest) := match text with
    | '-' :: rest => (true, rest)
    | rest => (false, rest)
  let (whole, rest) ← readWhole rest
  let (fraction, rest) ← readFraction rest
  let (exponent, rest) ← readExponent rest
  return (⟨negative, whole, fraction, exponent⟩, rest)

/-- The value of a hexadecimal digit. -/
def hexDigit? (c : Char) : Option Nat :=
  if c.isDigit then some (c.toNat - '0'.toNat)
  else if 'a' ≤ c ∧ c ≤ 'f' then some (c.toNat - 'a'.toNat + 10)
  else if 'A' ≤ c ∧ c ≤ 'F' then some (c.toNat - 'A'.toNat + 10)
  else none

/-- The code that four hexadecimal digits spell. -/
def hexCode? (a b c d : Char) : Option Nat := do
  return (((← hexDigit? a) * 16 + (← hexDigit? b)) * 16 + (← hexDigit? c)) * 16 + (← hexDigit? d)

/-- The character for which an escape letter stands. -/
def escapeLetter? : Char → Option Char
  | '"' => some '"'
  | '\\' => some '\\'
  | '/' => some '/'
  | 'b' => some '\x08'
  | 'f' => some '\x0c'
  | 'n' => some '\n'
  | 'r' => some '\r'
  | 't' => some '\t'
  | _ => none

/-- The pieces of a string up to its closing quote, and what comes behind it. -/
def readPieces : List Char → Option (List Piece × List Char)
  | [] => none
  | '"' :: rest => some ([], rest)
  | '\\' :: 'u' :: a :: b :: c :: d :: rest => do
    let n ← hexCode? a b c d
    let (pieces, rest) ← readPieces rest
    return (.code n :: pieces, rest)
  | '\\' :: letter :: rest => do
    let c ← escapeLetter? letter
    let (pieces, rest) ← readPieces rest
    return (.char c :: pieces, rest)
  | c :: rest =>
    if c.toNat < 0x20 then none
    else do
      let (pieces, rest) ← readPieces rest
      return (.char c :: pieces, rest)

/-! ## Values -/

mutual

/-- The value in front of a text, and what comes behind it. -/
def readValue : Nat → List Char → Option (Raw × List Char)
  | 0, _ => none
  | fuel + 1, text =>
    match skipGap text with
    | 'n' :: 'u' :: 'l' :: 'l' :: rest => some (.null, rest)
    | 't' :: 'r' :: 'u' :: 'e' :: rest => some (.bool true, rest)
    | 'f' :: 'a' :: 'l' :: 's' :: 'e' :: rest => some (.bool false, rest)
    | '"' :: rest => (readPieces rest).map fun (pieces, rest) => (.string pieces, rest)
    | '[' :: rest =>
      match skipGap rest with
      | ']' :: rest => some (.array [], rest)
      | rest => (readItems fuel rest).map fun (items, rest) => (.array items, rest)
    | '{' :: rest =>
      match skipGap rest with
      | '}' :: rest => some (.object [], rest)
      | rest => (readMembers fuel rest).map fun (members, rest) => (.object members, rest)
    | rest => (readNumeral rest).map fun (n, rest) => (.number n, rest)

/-- The elements of an array, one or more, up to its closing bracket. -/
def readItems : Nat → List Char → Option (List Raw × List Char)
  | 0, _ => none
  | fuel + 1, text => do
    let (item, rest) ← readValue fuel text
    match skipGap rest with
    | ',' :: rest =>
      let (items, rest) ← readItems fuel rest
      return (item :: items, rest)
    | ']' :: rest => return ([item], rest)
    | _ => none

/-- The members of an object, one or more, up to its closing brace. -/
def readMembers : Nat → List Char → Option (List (List Piece × Raw) × List Char)
  | 0, _ => none
  | fuel + 1, text =>
    match skipGap text with
    | '"' :: rest => do
      let (name, rest) ← readPieces rest
      match skipGap rest with
      | ':' :: rest =>
        let (value, rest) ← readValue fuel rest
        match skipGap rest with
        | ',' :: rest =>
          let (members, rest) ← readMembers fuel rest
          return ((name, value) :: members, rest)
        | '}' :: rest => return ([(name, value)], rest)
        | _ => none
      | _ => none
    | _ => none

end

/-- Reads the value in front of a text. Every level of nesting takes a character and two units of
    fuel, so twice the length of the text is enough. -/
def Raw.read (text : List Char) : Option (Raw × List Char) := readValue (2 * text.length + 2) text

/-- Reads a text that is one value with blanks around it. -/
def Raw.readAll (text : String) : Option Raw :=
  match Raw.read text.toList with
  | some (raw, rest) => if (skipGap rest).isEmpty then some raw else none
  | none => none

end LosslessTree.Json
