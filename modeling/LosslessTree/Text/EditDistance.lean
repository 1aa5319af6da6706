/-!
# `Text.EditDistance` — how close two names are

The edit distance of two words is the least number of insertions, deletions and replacements of one
character that turn one into the other. It is computed row by row: the row of a word `a` against
`b` lists the distances of `a` to `b` and to all its proper endings, the empty one last, and the row
of `x :: a` follows from the row of `a`.

Closeness is the share of characters that need no edit, `1 - distance / length` with the length of
the longer word. It is kept as a pair of numbers and compared by cross multiplication, so that no
rounding enters.
-/

namespace LosslessTree.Text

/-- The row of a word that starts with `x`, from the row `below` of the word without it. -/
def distanceRow (x : Char) : List Char → List Nat → List Nat
  | y :: b, d :: diagonal :: below =>
    let rest := distanceRow x b (diagonal :: below)
    let here := if x = y then diagonal else 1 + min (min d (rest.headD 0)) diagonal
    here :: rest
  | _, below => below.map (· + 1)

/-- Distances of `a` to `b` and to each of its proper endings. -/
def distances : List Char → List Char → List Nat
  | [], b => (List.range (b.length + 1)).reverse
  | x :: a, b => distanceRow x b (distances a b)

/-- The edit distance of two words. -/
def editDistance (a b : List Char) : Nat := (distances a b).headD 0

/-- How close two words are: `1 - edits / length`. -/
structure Closeness where
  edits : Nat
  length : Nat
  deriving DecidableEq, Repr

namespace Closeness

/-- The closeness of two words; two empty words are as close as can be. -/
def ofWords (a b : String) : Closeness :=
  ⟨editDistance a.toList b.toList, max 1 (max a.length b.length)⟩

/-- Whether the share of characters without an edit is at least seven tenths. -/
def isNear (c : Closeness) : Bool := decide (10 * c.edits ≤ 3 * c.length)

/-- Whether `c` is at least as close as `d`. -/
def atLeast (c d : Closeness) : Bool := decide (c.edits * d.length ≤ d.edits * c.length)

end Closeness

end LosslessTree.Text
