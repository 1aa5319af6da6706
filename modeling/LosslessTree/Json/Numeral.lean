import LosslessTree.Decimal.DoubleRange

/-!
# `Json.Numeral` — number texts

A numeral keeps the digits of a number text. Of its value two things matter: whether it is an
integer of 64 bits, and whether it is so large that no double is near it.

An integer is written without a point and without an exponent. A minus sign in front of zero makes
it a fraction, since no integer has a negative zero.
-/

namespace LosslessTree.Json

/-- The parts of a number text. -/
structure Numeral where
  negative : Bool
  /-- Digits before the point. -/
  whole : List Char
  /-- Digits after the point; none if there is no point. -/
  fraction : List Char
  /-- Sign and digits of the exponent. -/
  exponent : Option (Bool × List Char)
  deriving DecidableEq, Repr

/-- The greatest unsigned number of 64 bits. -/
def maxWord : Nat := 18446744073709551615

namespace Numeral

/-- The integer that a numeral spells: from `-2^63` to `2^64 - 1`, and not a negative zero. -/
def integer? (n : Numeral) : Option Int :=
  if n.fraction.isEmpty && n.exponent.isNone then
    let magnitude := Nat.ofDigitChars 10 n.whole 0
    if n.negative then
      if 0 < magnitude ∧ magnitude ≤ 9223372036854775808 then some (-(magnitude : Int)) else none
    else if magnitude ≤ maxWord then some (magnitude : Int)
    else none
  else none

/-- Reads digits before the point as long as the number fits a word. Returns it with the number of
    digits left out. -/
def wholeWord (word : Nat) : List Char → Nat × Nat
  | [] => (word, 0)
  | d :: rest =>
    let next := Nat.ofDigitChars 10 [d] word
    if next ≤ maxWord then wholeWord next rest else (word, rest.length + 1)

/-- Goes on with the digits after the point. Returns the number with the count of digits taken. -/
def fractionWord (word : Nat) : List Char → Nat × Nat
  | [] => (word, 0)
  | d :: rest =>
    let next := Nat.ofDigitChars 10 [d] word
    if next ≤ maxWord then
      let (last, taken) := fractionWord next rest
      (last, taken + 1)
    else (word, 0)

/-- The exponent as written. -/
def shift (n : Numeral) : Int :=
  match n.exponent with
  | none => 0
  | some (negative, digits) =>
    let e : Int := Nat.ofDigitChars 10 digits 0
    if negative then -e else e

/-- Whether some double is near the number. The leading digits that fit a word stand for all. -/
def isFinite (n : Numeral) : Bool :=
  let (whole, dropped) := wholeWord 0 n.whole
  let (word, taken) := fractionWord whole n.fraction
  !Decimal.productOverflows word ((dropped : Int) - taken + n.shift)

/-- The text of a numeral. -/
def chars (n : Numeral) : List Char :=
  let sign := fun negative : Bool => if negative then ['-'] else []
  let fraction := if n.fraction.isEmpty then [] else '.' :: n.fraction
  let exponent := match n.exponent with
    | none => []
    | some (negative, digits) => 'e' :: sign negative ++ digits
  sign n.negative ++ n.whole ++ fraction ++ exponent

end Numeral

end LosslessTree.Json
