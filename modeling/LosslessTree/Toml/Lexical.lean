import LosslessTree.Json.Raw

/-!
# `Toml.Lexical` — blanks, comments, strings and keys

Blanks are space and tab; a line ends with LF or CR LF, and a lone CR stands nowhere. A comment goes
from `#` to the end of its line. Apart from the tab, no control character stands in a comment or a
string.

Strings come in four forms: in double quotes with escapes, in single quotes without, and each over
several lines in three quotes. The text of the latter begins after a line end that follows the
opening quotes directly, and one or two more quotes may come before the closing ones. A backslash at
the end of a line takes away the line end and all blanks up to the next other character.

A key is one or more names with dots between them; a name is a bare word or a string on one line.
-/

namespace LosslessTree.Toml

/-- Whether a character is a blank inside a line. -/
def isBlank (c : Char) : Bool := c == ' ' || c == '\t'

/-- Whether a character may stand in comments and strings: a tab, or not a control character. -/
def isPlain (c : Char) : Bool := c == '\t' || (decide (0x20 ≤ c.toNat) && c.toNat != 0x7F)

/-- The text without the blanks in front. -/
def skipBlank (text : List Char) : List Char := text.dropWhile isBlank

/-! ## Blanks, line ends and comments -/

/-- The text without blanks, line ends and comments in front; `comment` tells whether it starts in a
    comment. Fails at a character that no comment holds. -/
def skipGap (comment : Bool) : List Char → Option (List Char)
  | [] => some []
  | '\n' :: rest => skipGap false rest
  | '\r' :: '\n' :: rest => skipGap false rest
  | c :: rest =>
    if comment then
      if isPlain c then skipGap true rest else none
    else if isBlank c then skipGap false rest
    else if c == '#' then skipGap true rest
    else some (c :: rest)

/-- What comes after the end of the current line, where only blanks and a comment may stand. -/
def endLine (text : List Char) : Option (List Char) :=
  match skipBlank text with
  | [] => some []
  | '\n' :: rest => some rest
  | '\r' :: '\n' :: rest => some rest
  | '#' :: rest =>
    match rest.dropWhile isPlain with
    | [] => some []
    | '\n' :: rest => some rest
    | '\r' :: '\n' :: rest => some rest
    | _ => none
  | _ => none

/-! ## Strings -/

/-- The character that hexadecimal digits spell. -/
def hexChar? (digits : List Char) : Option Char := do
  let values ← digits.mapM Json.hexDigit?
  let n := values.foldl (fun n d => 16 * n + d) 0
  if n.isValidChar then some (Char.ofNat n) else none

/-- The character for which an escape letter stands. -/
def escapeLetter? : Char → Option Char
  | 'b' => some '\x08'
  | 't' => some '\t'
  | 'n' => some '\n'
  | 'f' => some '\x0c'
  | 'r' => some '\r'
  | 'e' => some '\x1b'
  | '"' => some '"'
  | '\\' => some '\\'
  | _ => none

/-- Puts a character in front of a text that was read. -/
def consRead (c : Char) (read : Option (List Char × List Char)) : Option (List Char × List Char) :=
  read.map fun (text, rest) => (c :: text, rest)

/-- Characters up to a closing double quote. -/
def readBasic : List Char → Option (List Char × List Char)
  | [] => none
  | '"' :: rest => some ([], rest)
  | '\\' :: 'x' :: a :: b :: rest => do
    consRead (← hexChar? [a, b]) (readBasic rest)
  | '\\' :: 'u' :: a :: b :: c :: d :: rest => do
    consRead (← hexChar? [a, b, c, d]) (readBasic rest)
  | '\\' :: 'U' :: a :: b :: c :: d :: e :: f :: g :: h :: rest => do
    consRead (← hexChar? [a, b, c, d, e, f, g, h]) (readBasic rest)
  | '\\' :: letter :: rest => do
    consRead (← escapeLetter? letter) (readBasic rest)
  | c :: rest => if isPlain c then consRead c (readBasic rest) else none

/-- Characters up to a closing single quote. -/
def readLiteral : List Char → Option (List Char × List Char)
  | [] => none
  | '\'' :: rest => some ([], rest)
  | c :: rest => if isPlain c then consRead c (readLiteral rest) else none

/-- Whether the line ends after blanks. -/
def lineEnds (text : List Char) : Bool :=
  match skipBlank text with
  | '\n' :: _ => true
  | '\r' :: '\n' :: _ => true
  | _ => false

/-- Characters up to three closing double quotes. While `trimming`, blanks and line ends are left
    out. -/
def readLongBasic (trimming : Bool) : List Char → Option (List Char × List Char)
  | [] => none
  | '"' :: '"' :: '"' :: '"' :: '"' :: rest => some (['"', '"'], rest)
  | '"' :: '"' :: '"' :: '"' :: rest => some (['"'], rest)
  | '"' :: '"' :: '"' :: rest => some ([], rest)
  | '\\' :: 'x' :: a :: b :: rest => do
    consRead (← hexChar? [a, b]) (readLongBasic false rest)
  | '\\' :: 'u' :: a :: b :: c :: d :: rest => do
    consRead (← hexChar? [a, b, c, d]) (readLongBasic false rest)
  | '\\' :: 'U' :: a :: b :: c :: d :: e :: f :: g :: h :: rest => do
    consRead (← hexChar? [a, b, c, d, e, f, g, h]) (readLongBasic false rest)
  | '\\' :: letter :: rest =>
    if lineEnds (letter :: rest) then readLongBasic true (letter :: rest)
    else do
      consRead (← escapeLetter? letter) (readLongBasic false rest)
  | '\r' :: '\n' :: rest =>
    if trimming then readLongBasic true rest
    else consRead '\r' (consRead '\n' (readLongBasic false rest))
  | c :: rest =>
    if trimming && (isBlank c || c == '\n') then readLongBasic true rest
    else if isPlain c || c == '\n' then consRead c (readLongBasic false rest)
    else none

/-- Characters up to three closing single quotes. -/
def readLongLiteral : List Char → Option (List Char × List Char)
  | [] => none
  | '\'' :: '\'' :: '\'' :: '\'' :: '\'' :: rest => some (['\'', '\''], rest)
  | '\'' :: '\'' :: '\'' :: '\'' :: rest => some (['\''], rest)
  | '\'' :: '\'' :: '\'' :: rest => some ([], rest)
  | '\r' :: '\n' :: rest => consRead '\r' (consRead '\n' (readLongLiteral rest))
  | c :: rest => if isPlain c || c == '\n' then consRead c (readLongLiteral rest) else none

/-- The text without a line end in front. -/
def dropLineEnd : List Char → List Char
  | '\n' :: rest => rest
  | '\r' :: '\n' :: rest => rest
  | rest => rest

/-- A string in any of the four forms. -/
def readString : List Char → Option (List Char × List Char)
  | '"' :: '"' :: '"' :: rest => readLongBasic false (dropLineEnd rest)
  | '"' :: rest => readBasic rest
  | '\'' :: '\'' :: '\'' :: rest => readLongLiteral (dropLineEnd rest)
  | '\'' :: rest => readLiteral rest
  | _ => none

/-! ## Keys -/

/-- Whether a character may stand in a bare name. -/
def isBare (c : Char) : Bool := c.isAlphanum || c == '_' || c == '-'

/-- One name of a key. -/
def readName : List Char → Option (String × List Char)
  | '"' :: rest => (readBasic rest).map fun (name, rest) => (String.ofList name, rest)
  | '\'' :: rest => (readLiteral rest).map fun (name, rest) => (String.ofList name, rest)
  | text =>
    match text.span isBare with
    | ([], _) => none
    | (name, rest) => some (String.ofList name, rest)

/-- How many names a key may have before its last one. -/
def maxKeyPath : Nat := 79

/-- A key: its names before the last, and the last. Each name takes at least a character, so `fuel`
    bounds their number. -/
def readKey : Nat → List Char → Option (List String × String × List Char)
  | 0, _ => none
  | fuel + 1, text => do
    let (name, rest) ← readName text
    match skipBlank rest with
    | '.' :: rest =>
      let (path, last, rest) ← readKey fuel (skipBlank rest)
      return (name :: path, last, rest)
    | _ => return ([], name, rest)

end LosslessTree.Toml
