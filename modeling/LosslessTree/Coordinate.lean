/-!
# `Coordinate` — line and column numbers in a 64-bit range

Lines and columns are integers that have to fit into 64 signed bits. The numbers themselves are
plain `Int`s, so order and equality are those of `Int`; what the range adds is that a sum, a
difference or a negation may leave it, and then the step fails with an `Overflow` that says which
kind of step it was.

## Contents
- **Range.** `Coordinate.least`, `Coordinate.greatest`, the decidable `Coordinate.InRange`.
- **Checked steps.** `Coordinate.add`, `Coordinate.subtract`, `Coordinate.negate`.
- **Counts.** `Coordinate.ofCount`, a count of characters as a coordinate.
-/

namespace LosslessTree

/-- The kind of arithmetic step that left the coordinate range. -/
inductive Overflow where
  | add
  | subtract
  | negate
  deriving DecidableEq, Repr

/-- The text under which an overflow is reported. -/
def Overflow.message : Overflow → String
  | .add => "attempt to add with overflow"
  | .subtract => "attempt to subtract with overflow"
  | .negate => "attempt to negate with overflow"

namespace Coordinate

/-- The least coordinate, `-2^63`. -/
def least : Int := -9223372036854775808

/-- The greatest coordinate, `2^63 - 1`. -/
def greatest : Int := 9223372036854775807

/-- A number that fits into 64 signed bits. -/
def InRange (n : Int) : Prop := least ≤ n ∧ n ≤ greatest

instance (n : Int) : Decidable (InRange n) := inferInstanceAs (Decidable (_ ∧ _))

/-- The result `n` of a step, unless it left the range. -/
def settle (step : Overflow) (n : Int) : Except Overflow Int :=
  if InRange n then .ok n else .error step

/-- Sum of two coordinates. -/
def add (a b : Int) : Except Overflow Int := settle .add (a + b)

/-- Difference of two coordinates. -/
def subtract (a b : Int) : Except Overflow Int := settle .subtract (a - b)

/-- Negation of a coordinate; only `least` has none. -/
def negate (a : Int) : Except Overflow Int := settle .negate (-a)

/-- A count as a coordinate; a count beyond the range stands at its upper end. -/
def ofCount (n : Nat) : Int := min (n : Int) greatest

/-! ## When a step succeeds -/

theorem settle_eq_ok {step : Overflow} {n : Int} (h : InRange n) : settle step n = .ok n :=
  if_pos h

theorem settle_eq_error {step : Overflow} {n : Int} (h : ¬ InRange n) :
    settle step n = .error step :=
  if_neg h

theorem ofCount_eq {n : Nat} (h : (n : Int) ≤ greatest) : ofCount n = n := by
  unfold ofCount
  omega

end Coordinate

end LosslessTree
