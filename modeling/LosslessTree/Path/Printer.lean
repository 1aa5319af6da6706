import LosslessTree.Path.Basic
import LosslessTree.Text.Blank

/-!
# `Path.Printer` — paths as dotted text

The keys of a path are joined by dots: `body.0.value`. An index is written in decimal. A name
stands as it is unless that would be read as something else; then it is put in double quotes, where
a backslash comes before quotes and backslashes, and line feed, tab and carriage return become
`\n`, `\t` and `\r`.
-/

namespace LosslessTree

namespace Key

/-- Characters that an unquoted name does not hold. -/
def isSpecial (c : Char) : Bool :=
  c == '.' || c == '"' || c == '\'' || c == '\\' || Text.isBlank c

/-- Whether a name is quoted: it is empty, all digits, or holds a special character. -/
def needsQuotes (name : List Char) : Bool := name.all Char.isDigit || name.any isSpecial

/-- The written form of one character between double quotes. -/
def escape : Char → List Char
  | '"' => ['\\', '"']
  | '\\' => ['\\', '\\']
  | '\n' => ['\\', 'n']
  | '\t' => ['\\', 't']
  | '\r' => ['\\', 'r']
  | c => [c]

/-- A name in double quotes. -/
def quote (name : List Char) : List Char := '"' :: name.flatMap escape ++ ['"']

/-- The written form of a key inside a path. -/
def chars : Key → List Char
  | .index i => Nat.toDigits 10 i
  | .name s => if needsQuotes s.toList then quote s.toList else s.toList

end Key

namespace Path

/-- The written form of a path, as characters. -/
def chars : Path → List Char
  | [] => []
  | [key] => key.chars
  | key :: rest => key.chars ++ '.' :: chars rest

/-- The written form of a path. -/
def text (p : Path) : String := String.ofList p.chars

/-- The written form of a path, with a visible sign for the root. -/
def shown (p : Path) : String := if p.isRoot then "<root>" else p.text

end Path

end LosslessTree
