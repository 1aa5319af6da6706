/-!
# `Command.Report` — what the program prints

A report is what a run leaves behind: its exit status and the texts on its two outputs. Marks and
headings can be shown in colour; a style ends with the reset sequence, and where a styled text holds
that sequence itself the style is taken up again behind it.

An error is reported with the chain of its causes. A single cause is indented; of several each has a
number.
-/

namespace LosslessTree

/-- What a run leaves behind. -/
structure Report where
  exit : Nat := 0
  out : String := ""
  err : String := ""
  deriving DecidableEq, Repr

/-- How a text stands out. -/
inductive Style where
  | green
  | yellow
  | red
  | bold
  | dimmed
  deriving DecidableEq, Repr

namespace Style

/-- The number of a style. -/
def code : Style → String
  | .green => "32"
  | .yellow => "33"
  | .red => "31"
  | .bold => "1"
  | .dimmed => "2"

/-- The sequence that starts a style. -/
def opening (style : Style) : String := "\x1b[" ++ style.code ++ "m"

/-- The sequence that ends every style. -/
def reset : String := "\x1b[0m"

/-- Takes up `opening` again behind every reset sequence. -/
def renew (opening : List Char) : List Char → List Char
  | '\x1b' :: '[' :: '0' :: 'm' :: rest =>
    '\x1b' :: '[' :: '0' :: 'm' :: opening ++ renew opening rest
  | c :: rest => c :: renew opening rest
  | [] => []

/-- A text in a style, if colours are on. -/
def paint (colours : Bool) (style : Style) (text : String) : String :=
  if colours then
    style.opening ++ String.ofList (renew style.opening.toList text.toList) ++ reset
  else text

end Style

namespace Report

/-- A text with `margin` behind every line end. -/
def indented (margin : String) (text : String) : String :=
  String.ofList (text.toList.flatMap fun c => if c = '\n' then '\n' :: margin.toList else [c])

/-- Causes with numbers in front, from `n`. -/
def numbered (n : Nat) : List String → String
  | [] => ""
  | cause :: rest =>
    let number := toString n
    let margin := String.ofList (List.replicate (5 - number.length) ' ')
    "\n" ++ margin ++ number ++ ": " ++ indented "       " cause ++ numbered (n + 1) rest

/-- The causes of an error. -/
def causeList : List String → String
  | [] => ""
  | [cause] => "\n\nCaused by:\n    " ++ indented "    " cause
  | causes => "\n\nCaused by:" ++ numbered 0 causes

/-- The report of an error with its causes. -/
def failure (message : String) (causes : List String) : Report :=
  { exit := 1, err := "Error: " ++ message ++ causeList causes ++ "\n" }

end Report

end LosslessTree
