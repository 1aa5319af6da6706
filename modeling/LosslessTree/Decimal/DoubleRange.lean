/-!
# `Decimal.DoubleRange` — decimals too large for a double

Number texts are not turned into doubles here, since no value of a tree or a query is one. What
matters is only whether a text would overflow: a double holds 53 significant bits, and a number of
`2^1024 - 2^970` or more rounds to infinity.
-/

namespace LosslessTree.Decimal

/-- The least number that rounds to infinity. -/
def doubleLimit : Nat := Nat.pow 2 1024 - Nat.pow 2 970

/-- The nearest number with 53 significant bits; of two nearest ones the even. -/
def roundToDouble (n : Nat) : Nat :=
  if n < Nat.pow 2 53 then n
  else
    let unit := Nat.pow 2 (n.log2 - 52)
    let quotient := n / unit
    let rest := n % unit
    let up := decide (unit < 2 * rest) || (decide (unit = 2 * rest) && decide (quotient % 2 = 1))
    (if up then quotient + 1 else quotient) * unit

/-- The greatest power of ten that a double holds has this exponent. -/
def maxExponent : Nat := 308

/-- Whether `n * 10^e` overflows, where `n` is rounded to a double first. -/
def productOverflows (n : Nat) (e : Int) : Bool :=
  if n = 0 then false
  else if e < 0 then false
  else if (maxExponent : Int) < e then true
  else decide (doubleLimit ≤ roundToDouble n * roundToDouble (Nat.pow 10 e.toNat))

/-- Whether `n * 10^e` itself is at or beyond the limit; `n` has `digits` digits. -/
def overflows (n : Nat) (digits : Nat) (e : Int) : Bool :=
  if n = 0 then false
  else if e + digits < (maxExponent : Int) then false
  else if (2 * maxExponent : Int) < e then true
  else if e < 0 then decide (doubleLimit * Nat.pow 10 (-e).toNat ≤ n)
  else decide (doubleLimit ≤ n * Nat.pow 10 e.toNat)

end LosslessTree.Decimal
