import Mathlib.Data.List.TakeDrop
import LosslessTree.Json.Value

/-!
# `Proofs.JsonText` — strings and numbers of a JSON text, and its value

A text is read in two steps. The first finds its structure, in which strings and numbers are as they are
written; `Json.raw` is the structure of the texts of a value. This module says how the strings and numbers
of a value are written and read, and does the second step: giving the structure its value yields the
value that was written exactly when its arrays and objects are not nested deeper than is allowed;
otherwise it yields nothing. Texts as a whole are in `Proofs.JsonGrammar`.

A fraction is kept as it was written, so its text may be one that no number has, and values with fractions
are left out. Where the value of a number matters, it is an integer of 64 bits (`Json.Integral`); for
the structure alone it may be any integer (`Json.Whole`).

## Contents
- **`Json.Whole`, `Json.Integral`**, the values in question; **`Json.depth`**, how deep a value is nested.
- **`Json.raw`**, the structure of the texts of a value.
- **`Json.readPieces_flatMap`, `Json.decodeText_pieces`**, strings, with their escapes.
- **`Json.readNumeral_integerChars`, `Json.settle_ofInt`**, integers.
- **`Json.settle_raw`**, the value of what was read.
-/

namespace LosslessTree.Json

/-! ## Values and their structure -/

mutual

/-- Every number of the value is an integer from `-2^63` to `2^64 - 1`. -/
def Integral : Json → Prop
  | .null | .bool _ | .string _ => True
  | .integer n => -9223372036854775808 ≤ n ∧ n ≤ maxWord
  | .real _ => False
  | .array items => IntegralItems items
  | .object members => IntegralMembers members

/-- Every number of the elements is an integer of 64 bits. -/
def IntegralItems : List Json → Prop
  | [] => True
  | item :: rest => item.Integral ∧ IntegralItems rest

/-- Every number of the members is an integer of 64 bits. -/
def IntegralMembers : List (String × Json) → Prop
  | [] => True
  | (_, value) :: rest => value.Integral ∧ IntegralMembers rest

end

mutual

/-- No number of the value is a fraction. -/
def Whole : Json → Prop
  | .null | .bool _ | .integer _ | .string _ => True
  | .real _ => False
  | .array items => WholeItems items
  | .object members => WholeMembers members

/-- No number of the elements is a fraction. -/
def WholeItems : List Json → Prop
  | [] => True
  | item :: rest => item.Whole ∧ WholeItems rest

/-- No number of the members is a fraction. -/
def WholeMembers : List (String × Json) → Prop
  | [] => True
  | (_, value) :: rest => value.Whole ∧ WholeMembers rest

end

theorem wholeItems_of_forall {items : List Json} (h : ∀ item ∈ items, item.Whole) :
    WholeItems items := by
  induction items with
  | nil => trivial
  | cons item rest ih =>
    rw [List.forall_mem_cons] at h
    exact ⟨h.1, ih h.2⟩

mutual

theorem Integral.whole {j : Json} (h : j.Integral) : j.Whole := by
  cases j with
  | null | bool | integer | string => trivial
  | real => exact absurd h id
  | array items => exact wholeItems_of_integral h
  | object members => exact wholeMembers_of_integral h

theorem wholeItems_of_integral {items : List Json} (h : IntegralItems items) : WholeItems items := by
  match items with
  | [] => trivial
  | item :: rest => exact ⟨h.1.whole, wholeItems_of_integral h.2⟩

theorem wholeMembers_of_integral {members : List (String × Json)} (h : IntegralMembers members) :
    WholeMembers members := by
  match members with
  | [] => trivial
  | (_, value) :: rest => exact ⟨h.1.whole, wholeMembers_of_integral h.2⟩

end

mutual

/-- How deep arrays and objects are nested in a value. -/
def depth : Json → Nat
  | .null | .bool _ | .integer _ | .real _ | .string _ => 0
  | .array items => 1 + depthItems items
  | .object members => 1 + depthMembers members

/-- The greatest depth of an element. -/
def depthItems : List Json → Nat
  | [] => 0
  | item :: rest => max item.depth (depthItems rest)

/-- The greatest depth of a member. -/
def depthMembers : List (String × Json) → Nat
  | [] => 0
  | (_, value) :: rest => max value.depth (depthMembers rest)

end

/-- The piece that is read where a character was written. Control characters without an escape of their
    own are written as codes. -/
def Piece.ofChar (c : Char) : Piece :=
  if c.toNat < 0x20 ∧ c ∉ ['\x08', '\x0c', '\n', '\r', '\t'] then .code c.toNat else .char c

/-- The pieces that are read where a text was written. -/
def pieces (s : String) : List Piece := s.toList.map Piece.ofChar

/-- The numeral that is read where an integer was written. -/
def Numeral.ofInt (n : Int) : Numeral := ⟨decide (n < 0), Nat.toDigits 10 n.natAbs, [], none⟩

mutual

/-- The structure of the text of a value. -/
def raw : Json → Raw
  | .null => .null
  | .bool b => .bool b
  | .integer n => .number (Numeral.ofInt n)
  | .real n => .number n
  | .string s => .string (pieces s)
  | .array items => .array (rawItems items)
  | .object members => .object (rawMembers members)

/-- The structures of the elements of an array. -/
def rawItems : List Json → List Raw
  | [] => []
  | item :: rest => item.raw :: rawItems rest

/-- The structures of the members of an object. -/
def rawMembers : List (String × Json) → List (List Piece × Raw)
  | [] => []
  | (name, value) :: rest => (pieces name, value.raw) :: rawMembers rest

end

/-! ## Strings -/

theorem hexDigit?_hexChar : ∀ n < 16, hexDigit? (hexChar n) = some n := by
  decide

/-- The digits of the code of a control character spell that code. -/
theorem hexCode?_control {n : Nat} (h : n < 0x20) :
    hexCode? '0' '0' (hexChar (n / 16)) (hexChar (n % 16)) = some n := by
  have hhigh := hexDigit?_hexChar (n / 16) (by omega)
  have hlow := hexDigit?_hexChar (n % 16) (by omega)
  have hzero : hexDigit? '0' = some 0 := by decide
  simp only [hexCode?, hhigh, hlow, hzero, bind, Option.bind, pure, Option.some.injEq]
  omega

/-- A character that is written as it is. -/
theorem readPieces_plain {c : Char} (hquote : c ≠ '"') (hback : c ≠ '\\') (h : ¬ c.toNat < 0x20)
    (rest : List Char) :
    readPieces (c :: rest) = (readPieces rest).map fun (pieces, rest) => (.char c :: pieces, rest) := by
  rw [readPieces, if_neg h]
  · cases readPieces rest <;> rfl
  · exact hquote
  · exact fun _ _ _ _ _ hc _ => hback hc
  · exact fun _ _ hc _ => hback hc

/-- A character that is written with a letter of its own. -/
theorem readPieces_letter {letter c : Char} (h : escapeLetter? letter = some c) (rest : List Char) :
    readPieces ('\\' :: letter :: rest) =
      (readPieces rest).map fun (pieces, rest) => (.char c :: pieces, rest) := by
  rw [readPieces]
  · rw [h]
    cases readPieces rest <;> rfl
  · rintro a b c d tail rfl -
    cases h

/-- A character that is written as a code. -/
theorem readPieces_code {a b c d : Char} {n : Nat} (h : hexCode? a b c d = some n)
    (rest : List Char) :
    readPieces ('\\' :: 'u' :: a :: b :: c :: d :: rest) =
      (readPieces rest).map fun (pieces, rest) => (.code n :: pieces, rest) := by
  rw [readPieces, h]
  cases readPieces rest <;> rfl

/-- The written form of a character is read as its piece. -/
theorem readPieces_escapeChar (c : Char) (rest : List Char) :
    readPieces (escapeChar c ++ rest) =
      (readPieces rest).map fun (pieces, rest) => (Piece.ofChar c :: pieces, rest) := by
  by_cases hletter : c ∈ ['"', '\\', '\x08', '\x0c', '\n', '\r', '\t']
  · simp only [List.mem_cons, List.not_mem_nil, or_false] at hletter
    rcases hletter with rfl | rfl | rfl | rfl | rfl | rfl | rfl
    all_goals exact readPieces_letter (by decide) rest
  · simp only [List.mem_cons, List.not_mem_nil, or_false, not_or] at hletter
    obtain ⟨hquote, hback, hb, hf, hn, hr, ht⟩ := hletter
    by_cases hcontrol : c.toNat < 0x20
    · have hpiece : Piece.ofChar c = .code c.toNat := by
        simp [Piece.ofChar, hcontrol, hb, hf, hn, hr, ht]
      simp only [escapeChar, hquote, hback, hb, hf, hn, hr, ht, hcontrol, if_true, if_false, hpiece]
      exact readPieces_code (hexCode?_control hcontrol) rest
    · have hpiece : Piece.ofChar c = .char c := by simp [Piece.ofChar, hcontrol]
      simp only [escapeChar, hquote, hback, hb, hf, hn, hr, ht, hcontrol, if_false, hpiece]
      exact readPieces_plain hquote hback hcontrol rest

/-- A text in quotes is read up to the closing one. -/
theorem readPieces_flatMap (cs rest : List Char) :
    readPieces (cs.flatMap escapeChar ++ '"' :: rest) = some (cs.map Piece.ofChar, rest) := by
  induction cs with
  | nil => simp [readPieces]
  | cons c cs ih =>
    rw [List.flatMap_cons, List.append_assoc, readPieces_escapeChar, ih]
    rfl

/-- A code below the surrogates stands for a character of its own. -/
theorem decodePieces_code {n : Nat} (h : n < 0xD800) (rest : List Piece) :
    decodePieces (.code n :: rest) = (decodePieces rest).map (Char.ofNat n :: ·) := by
  have hlead : isLeadCode n = false := by
    simp only [isLeadCode, Bool.and_eq_false_iff, decide_eq_false_iff_not]
    omega
  have htrail : isTrailCode n = false := by
    simp only [isTrailCode, Bool.and_eq_false_iff, decide_eq_false_iff_not]
    omega
  cases rest with
  | nil => simp [decodePieces, hlead, htrail]
  | cons piece rest =>
    cases piece with
    | char c => simp [decodePieces, hlead, htrail]
    | code m => simp [decodePieces, hlead, htrail]

theorem decodePieces_map_ofChar (cs : List Char) :
    decodePieces (cs.map Piece.ofChar) = some cs := by
  induction cs with
  | nil => rfl
  | cons c cs ih =>
    by_cases hcode : c.toNat < 0x20 ∧ c ∉ ['\x08', '\x0c', '\n', '\r', '\t']
    · rw [List.map_cons, Piece.ofChar, if_pos hcode, decodePieces_code (by omega), ih,
        Char.ofNat_toNat]
      rfl
    · rw [List.map_cons, Piece.ofChar, if_neg hcode, decodePieces, ih]
      rfl

/-- The pieces of a text stand for that text. -/
theorem decodeText_pieces (s : String) : decodeText (pieces s) = some s := by
  rw [decodeText, pieces, decodePieces_map_ofChar, Option.map_some, String.ofList_toList]

/-! ## Numbers -/

/-- A text does not go on with a number. -/
def Stops (rest : List Char) : Prop :=
  ∀ c ∈ rest.head?, c.isDigit = false ∧ c ≠ '.' ∧ c ≠ 'e' ∧ c ≠ 'E'

theorem exists_digit_cons (n : Nat) :
    ∃ d digits, Nat.toDigits 10 n = d :: digits ∧ d.isDigit = true := by
  obtain ⟨d, digits, hdigits⟩ := List.exists_cons_of_ne_nil (Nat.toDigits_ne_nil (n := n) (b := 10))
  have hd : d ∈ Nat.toDigits 10 n := hdigits ▸ List.mem_cons_self
  exact ⟨d, digits, hdigits, Nat.isDigit_of_mem_toDigits (by decide) (by decide) hd⟩

theorem Stops.cons {c : Char} (h : c.isDigit = false ∧ c ≠ '.' ∧ c ≠ 'e' ∧ c ≠ 'E')
    (rest : List Char) : Stops (c :: rest) := by
  intro d hd
  cases hd
  exact h

/-- A positive number does not begin with a zero. -/
theorem toDigits_ne_zero {n : Nat} (h : 0 < n) (tail : List Char) : Nat.toDigits 10 n ≠ '0' :: tail := by
  induction n using Nat.strongRecOn generalizing tail with
  | ind n ih =>
    by_cases hn : n < 10
    · have hdigit : ∀ m < 10, 0 < m → Nat.digitChar m ≠ '0' := by decide
      rw [Nat.toDigits_of_lt_base hn]
      intro heq
      exact hdigit n hn h (List.cons.inj heq).1
    · rw [Nat.toDigits_of_base_le (by decide) (by omega)]
      intro heq
      obtain ⟨c, digits, hdigits, -⟩ := exists_digit_cons (n / 10)
      rw [hdigits, List.cons_append] at heq
      rw [(List.cons.inj heq).1] at hdigits
      exact ih (n / 10) (by omega) (by omega) digits hdigits

/-- Digits are read up to where they stop. -/
theorem readDigits_append {digits rest : List Char} (hne : digits ≠ [])
    (hdigits : ∀ c ∈ digits, c.isDigit = true) (hstop : Stops rest) :
    readDigits (digits ++ rest) = some (digits, rest) := by
  have htake : rest.takeWhile Char.isDigit = [] := by
    cases rest with
    | nil => rfl
    | cons c tail => simp [(hstop c rfl).1]
  have hdrop : rest.dropWhile Char.isDigit = rest := by
    cases rest with
    | nil => rfl
    | cons c tail => simp [(hstop c rfl).1]
  rw [readDigits, List.span_eq_takeWhile_dropWhile, List.takeWhile_append_of_pos hdigits,
    List.dropWhile_append_of_pos hdigits, htake, hdrop, List.append_nil]
  cases digits with
  | nil => exact absurd rfl hne
  | cons c tail => rfl

/-- Digits with no zero in front of them are read up to where they stop. -/
theorem readWhole_append {digits rest : List Char} (hne : digits ≠ [])
    (hdigits : ∀ c ∈ digits, c.isDigit = true) (hzero : ∀ d more, digits ≠ '0' :: d :: more)
    (hstop : Stops rest) : readWhole (digits ++ rest) = some (digits, rest) := by
  rw [readWhole, readDigits_append hne hdigits hstop]
  split
  · rename_i second tail rest' heq
    exact absurd (Prod.mk.inj (Option.some.inj heq)).1 (hzero second tail)
  · rfl

/-- No zero stands in front of the digits of a number. -/
theorem toDigits_ne_zero_cons (n : Nat) (d : Char) (more : List Char) :
    Nat.toDigits 10 n ≠ '0' :: d :: more := by
  rcases Nat.eq_zero_or_pos n with rfl | hn
  · intro heq
    cases heq
  · exact toDigits_ne_zero hn _

theorem readFraction_of_stops {rest : List Char} (hstop : Stops rest) :
    readFraction rest = some ([], rest) := by
  unfold readFraction
  split
  · exact absurd rfl (hstop '.' rfl).2.1
  · rfl

theorem readExponent_of_stops {rest : List Char} (hstop : Stops rest) :
    readExponent rest = some (none, rest) := by
  unfold readExponent
  split
  · exact absurd rfl (hstop 'e' rfl).2.2.1
  · exact absurd rfl (hstop 'E' rfl).2.2.2
  · rfl

/-- Digits without a zero in front, a sign, a point and an exponent are read up to where they stop. -/
theorem readNumeral_digits {digits rest : List Char} (hne : digits ≠ [])
    (hdigits : ∀ c ∈ digits, c.isDigit = true) (hzero : ∀ d more, digits ≠ '0' :: d :: more)
    (hstop : Stops rest) :
    readNumeral (digits ++ rest) = some (⟨false, digits, [], none⟩, rest) := by
  have hunsigned : ∀ tail, digits ++ rest = '-' :: tail → False := by
    intro tail heq
    cases digits with
    | nil => exact hne rfl
    | cons d more =>
      have hd := hdigits d List.mem_cons_self
      rw [(List.cons.inj heq).1] at hd
      cases hd
  simp [readNumeral, readWhole_append hne hdigits hzero hstop, readFraction_of_stops hstop,
    readExponent_of_stops hstop]

/-- An integer is read up to where its digits stop. -/
theorem readNumeral_integerChars (n : Int) {rest : List Char} (hstop : Stops rest) :
    readNumeral (integerChars n ++ rest) = some (Numeral.ofInt n, rest) := by
  have hdigits : ∀ c ∈ Nat.toDigits 10 n.natAbs, c.isDigit = true := by
    intro c hc
    exact Nat.isDigit_of_mem_toDigits (by decide) (by decide) hc
  have hzero := toDigits_ne_zero_cons n.natAbs
  by_cases hn : n < 0
  · have hwhole := readWhole_append Nat.toDigits_ne_nil hdigits hzero hstop
    simp [integerChars, hn, readNumeral, hwhole, readFraction_of_stops hstop,
      readExponent_of_stops hstop, Numeral.ofInt]
  · have hnumeral := readNumeral_digits Nat.toDigits_ne_nil hdigits hzero hstop
    simp [integerChars, hn, hnumeral, Numeral.ofInt]

/-- The numeral of an integer of 64 bits has that integer as its value. -/
theorem settle_ofInt {n : Int} (h : -9223372036854775808 ≤ n ∧ n ≤ maxWord) :
    (Numeral.ofInt n).settle = some (.integer n) := by
  have hmagnitude : Nat.ofDigitChars 10 (Nat.toDigits 10 n.natAbs) 0 = n.natAbs :=
    Nat.ofDigitChars_ten_toDigits
  have hinteger : (Numeral.ofInt n).integer? = some n := by
    simp only [maxWord] at h
    by_cases hn : n < 0
    · have hrange : 0 < n.natAbs ∧ n.natAbs ≤ 9223372036854775808 := by omega
      simp only [Numeral.ofInt, Numeral.integer?, hmagnitude, hn, hrange, decide_true, List.isEmpty_nil,
        Option.isNone_none, Bool.and_self, if_true, and_self, Option.some.injEq]
      omega
    · have hrange : n.natAbs ≤ maxWord := by
        simp only [maxWord]
        omega
      simp only [Numeral.ofInt, Numeral.integer?, hmagnitude, hn, hrange, decide_false, List.isEmpty_nil,
        Option.isNone_none, Bool.and_self, if_true, Bool.false_eq_true, if_false, Option.some.injEq]
      omega
  rw [Numeral.settle, hinteger]

/-! ## The value of what was read -/

mutual

/-- **The value of a written value.** It is the value itself, if that is not nested deeper than is
    allowed, and else there is none. -/
theorem settle_raw {j : Json} (h : j.Integral) (bound : Nat) :
    j.raw.settle bound = if j.depth ≤ bound then some j else none := by
  cases j with
  | null => simp [raw, Raw.settle, depth]
  | bool b => simp [raw, Raw.settle, depth]
  | integer n => simp [raw, Raw.settle, depth, settle_ofInt h]
  | real n => exact absurd h id
  | string s => simp [raw, Raw.settle, depth, decodeText_pieces]
  | array items =>
    cases bound with
    | zero => simp [raw, Raw.settle, depth]
    | succ bound =>
      rw [raw, Raw.settle, settleItems_raw h, depth]
      by_cases hle : depthItems items ≤ bound
      · rw [if_pos hle, if_pos (by omega)]
        rfl
      · rw [if_neg hle, if_neg (by omega)]
        rfl
  | object members =>
    cases bound with
    | zero => simp [raw, Raw.settle, depth]
    | succ bound =>
      rw [raw, Raw.settle, settleMembers_raw h, depth]
      by_cases hle : depthMembers members ≤ bound
      · rw [if_pos hle, if_pos (by omega)]
        rfl
      · rw [if_neg hle, if_neg (by omega)]
        rfl

theorem settleItems_raw {items : List Json} (h : IntegralItems items) (bound : Nat) :
    settleItems bound (rawItems items) = if depthItems items ≤ bound then some items else none := by
  match items with
  | [] => rfl
  | item :: rest =>
    rw [rawItems, settleItems, settle_raw h.1, settleItems_raw h.2, depthItems]
    simp only [Nat.max_le]
    by_cases hitem : item.depth ≤ bound <;> by_cases hrest : depthItems rest ≤ bound
    all_goals simp [hitem, hrest]

theorem settleMembers_raw {members : List (String × Json)} (h : IntegralMembers members)
    (bound : Nat) :
    settleMembers bound (rawMembers members) =
      if depthMembers members ≤ bound then some members else none := by
  match members with
  | [] => rfl
  | (name, value) :: rest =>
    rw [rawMembers, settleMembers, decodeText_pieces, settle_raw h.1, settleMembers_raw h.2,
      depthMembers]
    simp only [Nat.max_le]
    by_cases hvalue : value.depth ≤ bound <;> by_cases hrest : depthMembers rest ≤ bound
    all_goals simp [hvalue, hrest]

end

end LosslessTree.Json
