/-!
# `Text.Blank` — white space

The characters with the Unicode property `White_Space`, 25 in all. A key of a dotted path may hold
one only inside quotes, and an identifier made of nothing else counts as missing.
-/

namespace LosslessTree.Text

/-- The code points with the property `White_Space`, as closed ranges in ascending order. -/
def blankRanges : List (Nat × Nat) :=
  [(0x09, 0x0D), (0x20, 0x20), (0x85, 0x85), (0xA0, 0xA0), (0x1680, 0x1680), (0x2000, 0x200A),
    (0x2028, 0x2029), (0x202F, 0x202F), (0x205F, 0x205F), (0x3000, 0x3000)]

/-- Whether a character is white space. -/
def isBlank (c : Char) : Bool :=
  blankRanges.any fun r => decide (r.1 ≤ c.toNat) && decide (c.toNat ≤ r.2)

/-- Whether a text holds nothing but white space. -/
def isBlankText (text : String) : Bool := text.toList.all isBlank

/-- The ranges hold 25 code points. -/
example : (blankRanges.map fun r => r.2 + 1 - r.1).sum = 25 := by decide

end LosslessTree.Text
