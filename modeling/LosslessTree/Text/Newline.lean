/-!
# `Text.Newline` — cutting a text at its line ends

A line end is LF, CR or the pair CR LF, which counts once. Cut at its line ends a text is a list of
runs that alternate between stretches without a line end and single line ends; the list starts and
ends with a stretch, which may be empty. So the empty text is one empty stretch, and `"a\n"` is the
stretch `"a"`, a line end and an empty stretch.

The runs can also be had one at a time, from a splitter. It keeps what is left of the text and whether a
line end comes next; the stretch behind the last line end is the last run.

## Contents
- **`Newline`**, the three line ends, and their texts.
- **`Run`**, a stretch or a line end.
- **`Text.runs`**, the cut, by recursion on the characters.
- **`Text.Splitter`**, the cut run by run.
-/

namespace LosslessTree

/-- A line end. -/
inductive Newline where
  | lf
  | cr
  | crlf
  deriving DecidableEq, Repr

namespace Newline

/-- The characters of a line end. -/
def chars : Newline → List Char
  | .lf => ['\n']
  | .cr => ['\r']
  | .crlf => ['\r', '\n']

/-- The line end that a text spells, if it is exactly one. -/
def ofChars? : List Char → Option Newline
  | ['\n'] => some .lf
  | ['\r'] => some .cr
  | ['\r', '\n'] => some .crlf
  | _ => none

@[simp] theorem ofChars?_chars (n : Newline) : ofChars? n.chars = some n := by
  cases n <;> rfl

end Newline

/-- One run of a cut text: a stretch without a line end, or a line end. -/
inductive Run where
  | stretch (chars : List Char)
  | newline (mark : Newline)
  deriving DecidableEq, Repr

namespace Run

/-- The characters of a run. -/
def chars : Run → List Char
  | .stretch cs => cs
  | .newline mark => mark.chars

/-- The run as a text. -/
def text (r : Run) : String := String.ofList r.chars

/-- Puts a character in front of the first run, which is a stretch in every cut text. -/
def consFirst (c : Char) : List Run → List Run
  | .stretch cs :: rest => .stretch (c :: cs) :: rest
  | rest => .stretch [c] :: rest

end Run

namespace Text

/-- A text, given by its characters, cut at its line ends. -/
def cut : List Char → List Run
  | [] => [.stretch []]
  | '\r' :: '\n' :: rest => .stretch [] :: .newline .crlf :: cut rest
  | '\r' :: rest => .stretch [] :: .newline .cr :: cut rest
  | '\n' :: rest => .stretch [] :: .newline .lf :: cut rest
  | c :: rest => Run.consFirst c (cut rest)

/-- A text cut at its line ends. -/
def runs (text : String) : List Run := cut text.toList

/-- Whether a text is exactly one line end. -/
def isNewline (text : String) : Bool := (Newline.ofChars? text.toList).isSome

/-! ## Run by run -/

/-- A text that is being cut: what is left of it, whether that begins with a line end, and whether the
    last run has been given. -/
structure Splitter where
  rest : List Char
  pendingNewline : Bool
  done : Bool
  deriving DecidableEq, Repr

/-- What a splitter answers when it is asked for a run. -/
inductive Pull where
  | ended
  /-- A line end was to be split off that is longer than what is left. -/
  | overrun
  | run (text : String) (later : Splitter)
  deriving DecidableEq, Repr

namespace Splitter

def ofText (text : String) : Splitter := ⟨text.toList, false, false⟩

/-- The next run and the splitter for those behind it. -/
def next (s : Splitter) : Pull :=
  if s.done then .ended
  else if s.pendingNewline then
    let width := if ['\r', '\n'].isPrefixOf s.rest then 2 else 1
    if width ≤ s.rest.length then
      .run (String.ofList (s.rest.take width)) ⟨s.rest.drop width, false, false⟩
    else .overrun
  else
    match s.rest.findIdx? ['\n', '\r'].contains with
    | some i => .run (String.ofList (s.rest.take i)) ⟨s.rest.drop i, true, false⟩
    | none => .run (String.ofList s.rest) ⟨s.rest, false, true⟩

end Splitter

end Text

end LosslessTree
