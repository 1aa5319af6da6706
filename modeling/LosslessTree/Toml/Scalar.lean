import LosslessTree.Coordinate
import LosslessTree.Decimal.DoubleRange
import LosslessTree.Toml.Table
import LosslessTree.Json.Raw

/-!
# `Toml.Scalar` — numbers, flags, dates and times

A scalar without quotes is a word of letters, digits, signs, points and colons.

* An integer is decimal with an optional sign and no leading zero, or hexadecimal, octal or binary
  behind `0x`, `0o` or `0b` and without a sign. Single underscores may stand between digits. It has
  to fit 64 signed bits.
* A float has a fraction or an exponent or both, and must not overflow; `inf` and `nan` are floats.
* A date is `YYYY-MM-DD` with a day that the month has. A time is `HH:MM`, optionally with seconds
  and a fraction of them. A date and a time are joined by `T` or one space, and then an offset may
  follow: `Z`, or a signed `HH:MM`.
-/

namespace LosslessTree.Toml

/-! ## Integers -/

/-- The digits of a group without the underscores between them. `digit` tells whether an underscore
    may come next. -/
def ungroup (isDigit : Char → Bool) (digit : Bool) : List Char → Option (List Char)
  | [] => if digit then some [] else none
  | c :: rest =>
    if c == '_' then
      if digit then ungroup isDigit false rest else none
    else if isDigit c then (ungroup isDigit true rest).map (c :: ·)
    else none

/-- Digits, at least one, with single underscores between them. -/
def digits? (isDigit : Char → Bool) (word : List Char) : Option (List Char) :=
  ungroup isDigit false word

/-- Decimal digits without a leading zero. -/
def decimal? (word : List Char) : Option (List Char) :=
  match digits? Char.isDigit word with
  | some ('0' :: _ :: _) => none
  | other => other

/-- A sign in front of a word, and whether it is a minus. -/
def splitSign : List Char → Bool × List Char
  | '-' :: rest => (true, rest)
  | '+' :: rest => (false, rest)
  | rest => (false, rest)

/-- The number that digits of a base spell. -/
def radixValue (base : Nat) (digits : List Char) : Nat :=
  digits.foldl (fun n c => base * n + (Json.hexDigit? c).getD 0) 0

/-- An integer, of any size. -/
def wideInteger? : List Char → Option Int
  | '0' :: 'x' :: word =>
    (digits? (fun c => (Json.hexDigit? c).isSome) word).map fun ds => radixValue 16 ds
  | '0' :: 'o' :: word =>
    (digits? (fun c => decide ('0' ≤ c ∧ c ≤ '7')) word).map fun ds => radixValue 8 ds
  | '0' :: 'b' :: word =>
    (digits? (fun c => decide (c = '0' ∨ c = '1')) word).map fun ds => radixValue 2 ds
  | word =>
    let (negative, word) := splitSign word
    (decimal? word).map fun ds =>
      let n : Int := radixValue 10 ds
      if negative then -n else n

/-- An integer of 64 bits. -/
def integer? (word : List Char) : Option Int :=
  (wideInteger? word).filter fun n => decide (Coordinate.InRange n)

/-! ## Floats -/

/-- The exponent behind its letter. -/
def exponent? (word : List Char) : Option Int :=
  let (negative, word) := splitSign word
  (digits? Char.isDigit word).map fun ds =>
    let e : Int := radixValue 10 ds
    if negative then -e else e

/-- Digits before the point, digits after it, and the exponent. -/
def floatParts? (word : List Char) : Option (List Char × List Char × Int) := do
  let (_, word) := splitSign word
  let (mantissa, tail) := word.span fun c => c != 'e' && c != 'E'
  let (whole, fraction) := mantissa.span (· != '.')
  let whole ← decimal? whole
  let fraction ← match fraction with
    | [] => if tail.isEmpty then none else some []
    | _ :: digits => digits? Char.isDigit digits
  let exponent ← match tail with
    | [] => some 0
    | _ :: digits => exponent? digits
  return (whole, fraction, exponent)

/-- Whether a word is a float. -/
def isFloat (word : List Char) : Bool :=
  let special := (splitSign word).2
  if special == ['i', 'n', 'f'] || special == ['n', 'a', 'n'] then true
  else
    match floatParts? word with
    | none => false
    | some (whole, fraction, exponent) =>
      let digits := whole ++ fraction
      !Decimal.overflows (radixValue 10 digits) digits.length (exponent - fraction.length)

/-! ## Dates and times -/

/-- A number of exactly two digits, at most `limit`. -/
def twoDigits? (limit : Nat) : List Char → Option (Nat × List Char)
  | a :: b :: rest =>
    if a.isDigit && b.isDigit then
      let n := radixValue 10 [a, b]
      if n ≤ limit then some (n, rest) else none
    else none
  | _ => none

/-- Number of days in a month. -/
def daysIn (year month : Nat) : Nat :=
  if month = 2 then
    if year % 4 = 0 ∧ (year % 100 ≠ 0 ∨ year % 400 = 0) then 29 else 28
  else if month = 4 ∨ month = 6 ∨ month = 9 ∨ month = 11 then 30
  else 31

/-- What comes behind a date. -/
def afterDate? : List Char → Option (List Char)
  | a :: b :: c :: d :: '-' :: rest =>
    if [a, b, c, d].all Char.isDigit then
      match twoDigits? 12 rest with
      | some (month, '-' :: rest) =>
        match twoDigits? (daysIn (radixValue 10 [a, b, c, d]) month) rest with
        | some (day, rest) => if month = 0 ∨ day = 0 then none else some rest
        | none => none
      | _ => none
    else none
  | _ => none

/-- What comes behind the fraction of a second, if there is one. -/
def afterFraction? : List Char → Option (List Char)
  | '.' :: rest =>
    match rest.span Char.isDigit with
    | ([], _) => none
    | (_, rest) => some rest
  | rest => some rest

/-- What comes behind a time. Seconds go up to 60. -/
def afterTime? (word : List Char) : Option (List Char) := do
  let (_, rest) ← twoDigits? 23 word
  match rest with
  | ':' :: rest =>
    let (_, rest) ← twoDigits? 59 rest
    match rest with
    | ':' :: rest =>
      let (_, rest) ← twoDigits? 60 rest
      afterFraction? rest
    | rest => some rest
  | _ => none

/-- Whether a word is empty or the offset of a time. -/
def isOffset : List Char → Bool
  | [] => true
  | ['Z'] => true
  | ['z'] => true
  | sign :: rest =>
    if sign == '+' || sign == '-' then
      match twoDigits? 23 rest with
      | some (_, ':' :: rest) =>
        match twoDigits? 59 rest with
        | some (_, []) => true
        | _ => false
      | _ => false
    else false

/-- Whether a word is a date, a time, or both. -/
def isDateTime (word : List Char) : Bool :=
  match afterDate? word with
  | some [] => true
  | some (sep :: time) =>
    if sep == 'T' || sep == 't' || sep == ' ' then
      match afterTime? time with
      | some rest => isOffset rest
      | none => false
    else false
  | none => afterTime? word == some []

/-! ## Scalars -/

/-- Characters of a scalar without quotes. -/
def isScalarChar (c : Char) : Bool :=
  c.isAlphanum || c == '_' || c == '-' || c == '+' || c == '.' || c == ':'

/-- The scalar that a word spells. -/
def scalar? (word : List Char) : Option Scalar :=
  if word == ['t', 'r', 'u', 'e'] then some (.boolean true)
  else if word == ['f', 'a', 'l', 's', 'e'] then some (.boolean false)
  else
    match integer? word with
    | some n => some (.integer n)
    | none =>
      if isFloat word then some (.float (String.ofList word))
      else if isDateTime word then some (.dateTime (String.ofList word))
      else none

/-- The word of a scalar without quotes. A space belongs to it where it joins a date and a time. -/
def readWord (text : List Char) : List Char × List Char :=
  let (word, rest) := text.span isScalarChar
  match afterDate? word, rest with
  | some [], ' ' :: d :: rest =>
    if d.isDigit then
      let (time, rest) := (d :: rest).span isScalarChar
      (word ++ ' ' :: time, rest)
    else (word, ' ' :: d :: rest)
  | _, _ => (word, rest)

end LosslessTree.Toml
