import LosslessTree.Path.Basic
import LosslessTree.Text.Blank

/-!
# `Path.Parser` — reading dotted text

The empty text is the root. Any other text is a sequence of segments with a dot between every two.
A segment is a bare word, a word in single quotes, taken as it is, or a word in double quotes, where
a backslash gives the next character a meaning of its own: `\n`, `\t` and `\r` are line feed, tab
and carriage return, and any other character stands for itself.

A bare word that spells a number below `2^64`, with or without a plus sign, is an index. Every other
word is a name; quotes make a name of digits too.

The scan goes through the text once, from left to right, and reports the first fault it meets.

## Contents
- **`PathFault`**, why a text is no path.
- **`Key.ofWord`**, the key that a bare word spells.
- **`Path.parse`**, by the scan `Path.scan` over the state `Path.Scan`.
-/

namespace LosslessTree

/-- Why a text is not a path. -/
inductive PathFault where
  | emptySegment
  | quoteInsideKey
  | blankInKey
  | textAfterQuote
  | unclosedQuote
  deriving DecidableEq, Repr

/-- The reason in words. -/
def PathFault.reason : PathFault → String
  | .emptySegment => "empty path segment"
  | .quoteInsideKey => "unexpected quote inside key"
  | .blankInKey => "whitespace not allowed in unquoted key"
  | .textAfterQuote => "text after closing quote"
  | .unclosedQuote => "unterminated quoted key"

/-- A text that is not a path, and why. -/
structure PathError where
  input : String
  fault : PathFault
  deriving DecidableEq, Repr

/-- The text under which the error is reported. -/
def PathError.message (e : PathError) : String :=
  "invalid path '" ++ e.input ++ "': " ++ e.fault.reason

namespace Key

/-- The number that a non-empty word of digits below `2^64` spells. -/
def digitsIndex? (word : List Char) : Option Nat :=
  if word.isEmpty || !word.all Char.isDigit then none
  else
    let n := Nat.ofDigitChars 10 word 0
    if n < indexBound then some n else none

/-- The index that a bare word spells; a plus sign may stand in front. -/
def wordIndex? : List Char → Option Nat
  | '+' :: word => digitsIndex? word
  | word => digitsIndex? word

/-- The key that a bare word spells. -/
def ofWord (word : List Char) : Key :=
  match wordIndex? word with
  | some i => .index i
  | none => .name (String.ofList word)

/-- The character that stands for itself or for a control character after a backslash. -/
def unescape : Char → Char
  | 'n' => '\n'
  | 't' => '\t'
  | 'r' => '\r'
  | c => c

end Key

namespace Path

/-- Where the scan stands inside the current segment; `word` is what has been read of it. -/
inductive Scan where
  /-- In a bare word, or before the first character of a segment. -/
  | bare (word : List Char)
  /-- Between single quotes. -/
  | single (word : List Char)
  /-- Between double quotes. -/
  | double (word : List Char)
  /-- Behind the closing quote. -/
  | closed (word : List Char)
  deriving DecidableEq, Repr

/-- The keys that the rest of the text spells. -/
def scan : Scan → List Char → Except PathFault Path
  | .bare word, [] =>
    if word.isEmpty then .error .emptySegment else .ok [Key.ofWord word]
  | .bare word, c :: rest =>
    if c = '.' then
      if word.isEmpty then .error .emptySegment
      else (scan (.bare []) rest).map (Key.ofWord word :: ·)
    else if c = '"' then
      if word.isEmpty then scan (.double []) rest else .error .quoteInsideKey
    else if c = '\'' then
      if word.isEmpty then scan (.single []) rest else .error .quoteInsideKey
    else if Text.isBlank c then .error .blankInKey
    else scan (.bare (word ++ [c])) rest
  | .single _, [] => .error .unclosedQuote
  | .single word, c :: rest =>
    if c = '\'' then scan (.closed word) rest else scan (.single (word ++ [c])) rest
  | .double _, [] => .error .unclosedQuote
  | .double _, ['\\'] => .error .unclosedQuote
  | .double word, '\\' :: c :: rest => scan (.double (word ++ [Key.unescape c])) rest
  | .double word, c :: rest =>
    if c = '"' then scan (.closed word) rest else scan (.double (word ++ [c])) rest
  | .closed word, [] => .ok [.name (String.ofList word)]
  | .closed word, c :: rest =>
    if c = '.' then (scan (.bare []) rest).map (.name (String.ofList word) :: ·)
    else if c = '"' ∨ c = '\'' then .error .quoteInsideKey
    else if Text.isBlank c then .error .blankInKey
    else .error .textAfterQuote

/-- The path that a text spells. -/
def parse (input : String) : Except PathError Path :=
  if input.isEmpty then .ok root
  else
    match scan (.bare []) input.toList with
    | .ok path => .ok path
    | .error fault => .error ⟨input, fault⟩

end Path

end LosslessTree
