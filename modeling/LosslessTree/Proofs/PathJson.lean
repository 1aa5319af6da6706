import Mathlib.Data.List.Forall2
import Mathlib.Data.List.TakeWhile
import LosslessTree.Json.Reading
import LosslessTree.Proofs.JsonGrammar
import LosslessTree.Proofs.PathGrammar

/-!
# `Proofs.PathJson` — the JSON texts of paths

A path is written as an array of its keys, an index as a number and a name as a string. Nothing tells
the two apart but the quotes, and they are enough: a number is never read as a name, and a string is
never read as an index, whatever its characters are.

The texts that are read as a path are given here without a reader, as `Path.ArrayText`: an array, with
blanks between its tokens, of strings and of unsigned integer literals below `2^64`. A literal is digits
with no zero in front of others. It has no sign: a number with a minus sign is below zero or, as `-0`, no
integer at all. A string may be written with any escapes, as long as every half of a surrogate pair has
its other half.

The reader takes these texts and no others. It goes through the structure `Json.Raw` of a text, so there
are two steps in each direction: from the text to its structure, and from the structure of an
element to its key, `Key.HasForm`.

## Contents
- **The grammar.** `Json.Quoted`, `Key.Literal`, `Path.Listed`, `Path.ArrayText`.
- **`Key.HasForm`**, the structure of an element that is a key.
- **Tokens.** `Json.readPieces_eq_some_iff`, `Json.digits_of_readNumeral`, `Json.readValue_readFrom`.
- **Keys.** `Key.Literal.exists_readValue`, `Key.HasForm.exists_literal`.
- **Arrays.** `Path.Listed.exists_readItems`, `Path.exists_listed_of_readItems`.
- **`Path.ofJsonText?_eq_some_iff`**, the texts of paths; **`Path.ofJsonText?_text`**, written paths.
-/

namespace LosslessTree

/-! ## The grammar -/

/-- What stands between the quotes of a string, and its pieces. -/
inductive Json.Quoted : List Char → List Json.Piece → Prop
  | nil : Quoted [] []
  | plain {c : Char} {inside : List Char} {pieces : List Json.Piece} :
      c ≠ '"' → c ≠ '\\' → ¬ c.toNat < 0x20 → Quoted inside pieces →
        Quoted (c :: inside) (.char c :: pieces)
  | letter {l c : Char} {inside : List Char} {pieces : List Json.Piece} :
      Json.escapeLetter? l = some c → Quoted inside pieces →
        Quoted ('\\' :: l :: inside) (.char c :: pieces)
  | code {a b c d : Char} {n : Nat} {inside : List Char} {pieces : List Json.Piece} :
      Json.hexCode? a b c d = some n → Quoted inside pieces →
        Quoted ('\\' :: 'u' :: a :: b :: c :: d :: inside) (.code n :: pieces)

/-- The JSON texts of a key. -/
inductive Key.Literal : Key → List Char → Prop
  /-- An integer literal below `2^64`. -/
  | index {digits : List Char} {i : Nat} :
      Digits digits i → (∀ d more, digits ≠ '0' :: d :: more) → Literal (.index i) digits
  /-- A string. -/
  | name {inside : List Char} {pieces : List Json.Piece} {s : String} :
      Json.Quoted inside pieces → Json.decodeText pieces = some s →
        Literal (.name s) ('"' :: (inside ++ ['"']))

/-- The text is that of the keys, one or more, with a comma between every two and blanks around each. -/
inductive Path.Listed : Path → List Char → Prop
  | last {key : Key} {before word behind : List Char} :
      Json.Gaps before → key.Literal word → Json.Gaps behind →
        Path.Listed [key] (before ++ (word ++ behind))
  | cons {key : Key} {before word behind rest : List Char} {p : Path} :
      Json.Gaps before → key.Literal word → Json.Gaps behind → Path.Listed p rest →
        Path.Listed (key :: p) (before ++ (word ++ (behind ++ ',' :: rest)))

/-- The text is an array of the keys of the path, with blanks around it. -/
inductive Path.ArrayText : Path → List Char → Prop
  | empty {before inside behind : List Char} :
      Json.Gaps before → Json.Gaps inside → Json.Gaps behind →
        Path.ArrayText [] (before ++ '[' :: (inside ++ ']' :: behind))
  | keys {p : Path} {before inside behind : List Char} :
      Json.Gaps before → p.Listed inside → Json.Gaps behind →
        Path.ArrayText p (before ++ '[' :: (inside ++ ']' :: behind))

/-! ## The structure of a key -/

/-- The structure of an element that is read as a key: an unsigned integer below `2^64`, or a string. -/
inductive Key.HasForm : Key → Json.Raw → Prop
  | index {digits : List Char} {i : Nat} :
      Nat.ofDigitChars 10 digits 0 = i → i < 18446744073709551616 →
        HasForm (.index i) (.number ⟨false, digits, [], none⟩)
  | name {pieces : List Json.Piece} {s : String} :
      Json.decodeText pieces = some s → HasForm (.name s) (.string pieces)

namespace Json

theorem integer?_unsigned (digits : List Char) :
    (⟨false, digits, [], none⟩ : Numeral).integer? =
      if Nat.ofDigitChars 10 digits 0 ≤ maxWord then some (Nat.ofDigitChars 10 digits 0 : Int)
      else none := by
  simp [Numeral.integer?]

/-- Only an unsigned numeral without a point and an exponent has an integer as its value that is not
    negative. -/
theorem eq_unsigned_of_integer? {n : Numeral} {i : Int} (h : n.integer? = some i) (hi : 0 ≤ i) :
    n = ⟨false, n.whole, [], none⟩ ∧ (Nat.ofDigitChars 10 n.whole 0 : Int) = i := by
  obtain ⟨negative, whole, fraction, exponent⟩ := n
  unfold Numeral.integer? at h
  simp only [Bool.and_eq_true, List.isEmpty_iff, Option.isNone_iff_eq_none] at h
  split at h
  · rename_i hwhole
    obtain ⟨rfl, rfl⟩ := hwhole
    cases negative with
    | true =>
      -- the value of a numeral with a sign is below zero
      simp only [if_true] at h
      split at h
      · cases h
        omega
      · cases h
    | false =>
      simp only [Bool.false_eq_true, if_false] at h
      split at h
      · exact ⟨rfl, Option.some.inj h⟩
      · cases h
  · cases h

end Json

/-- An integer is read as an index if it is one of the numbers below `2^64`. -/
theorem Key.ofJson?_integer_eq_some_iff {n : Int} {key : Key} :
    Key.ofJson? (.integer n) = some key ↔
      ∃ i : Nat, i < 18446744073709551616 ∧ n = i ∧ key = .index i := by
  have hbound : (Key.indexBound : Int) = 18446744073709551616 := by simp [Key.indexBound]
  simp only [Key.ofJson?]
  by_cases hrange : 0 ≤ n ∧ n < Key.indexBound
  · rw [if_pos hrange]
    constructor
    · intro h
      exact ⟨n.toNat, by omega, by omega, (Option.some.inj h).symm⟩
    · rintro ⟨i, -, rfl, rfl⟩
      rfl
  · rw [if_neg hrange]
    constructor
    · intro h
      cases h
    · rintro ⟨i, hi, rfl, -⟩
      exact absurd ⟨by omega, by omega⟩ hrange

/-- **The element of a key.** The value of an element is a key exactly when the element has the form of
    one, however deep it may be nested. -/
theorem Key.settle_bind_ofJson?_eq_some_iff {item : Json.Raw} {depth : Nat} {key : Key} :
    (item.settle depth).bind Key.ofJson? = some key ↔ key.HasForm item := by
  constructor
  · intro h
    obtain ⟨value, hvalue, hkey⟩ := Option.bind_eq_some_iff.mp h
    cases item with
    | null => cases hvalue; cases hkey
    | bool b => cases hvalue; cases hkey
    | number n =>
      unfold Json.Raw.settle Json.Numeral.settle at hvalue
      split at hvalue
      · rename_i i hi
        cases hvalue
        obtain ⟨i, hlt, rfl, rfl⟩ := Key.ofJson?_integer_eq_some_iff.mp hkey
        obtain ⟨hn, hwhole⟩ := Json.eq_unsigned_of_integer? hi (by omega)
        rw [hn]
        exact .index (by omega) hlt
      · split at hvalue
        · cases hvalue
          cases hkey
        · cases hvalue
    | string pieces =>
      obtain ⟨s, hs, rfl⟩ := Option.map_eq_some_iff.mp hvalue
      cases hkey
      exact .name hs
    | array items =>
      cases depth with
      | zero => cases hvalue
      | succ depth =>
        obtain ⟨values, -, rfl⟩ := Option.map_eq_some_iff.mp hvalue
        cases hkey
    | object members =>
      cases depth with
      | zero => cases hvalue
      | succ depth =>
        obtain ⟨values, -, rfl⟩ := Option.map_eq_some_iff.mp hvalue
        cases hkey
  · intro h
    cases h with
    | @index digits i hdigits hi =>
      have hword : i ≤ Json.maxWord := by
        unfold Json.maxWord
        omega
      have hinteger := Json.integer?_unsigned digits
      rw [hdigits, if_pos hword] at hinteger
      rw [Json.Raw.settle, Json.Numeral.settle, hinteger]
      rw [Option.bind_some, Key.ofJson?_integer_eq_some_iff]
      exact ⟨i, hi, rfl, rfl⟩
    | name hs =>
      rw [Json.Raw.settle, hs]
      rfl

namespace Json

/-! ## Blanks -/

theorem exists_gaps (text : List Char) : ∃ gap, Gaps gap ∧ text = gap ++ skipGap text := by
  refine ⟨text.takeWhile isGap, ?_, List.takeWhile_append_dropWhile.symm⟩
  intro c hc
  exact List.mem_takeWhile_imp hc

/-! ## Strings -/

/-- **Strings.** What is read up to a quote is what may stand in front of it. -/
theorem readPieces_eq_some_iff {text : List Char} {pieces : List Piece} {rest : List Char} :
    readPieces text = some (pieces, rest) ↔
      ∃ inside, Quoted inside pieces ∧ text = inside ++ '"' :: rest := by
  constructor
  · intro h
    fun_induction readPieces text generalizing pieces rest with
    | case1 => cases h
    | case2 tail =>
      cases h
      exact ⟨[], .nil, rfl⟩
    | case3 a b c d tail ih =>
      obtain ⟨n, hn, h⟩ := Option.bind_eq_some_iff.mp h
      obtain ⟨⟨more, tail'⟩, hmore, h⟩ := Option.bind_eq_some_iff.mp h
      cases h
      obtain ⟨inside, hinside, rfl⟩ := ih hmore
      exact ⟨_, .code hn hinside, rfl⟩
    | case4 l tail hcode ih =>
      obtain ⟨c, hc, h⟩ := Option.bind_eq_some_iff.mp h
      obtain ⟨⟨more, tail'⟩, hmore, h⟩ := Option.bind_eq_some_iff.mp h
      cases h
      obtain ⟨inside, hinside, rfl⟩ := ih hmore
      exact ⟨_, .letter hc hinside, rfl⟩
    | case5 => cases h
    | case6 c tail hquote hcode hletter hcontrol ih =>
      obtain ⟨⟨more, tail'⟩, hmore, h⟩ := Option.bind_eq_some_iff.mp h
      cases h
      obtain ⟨inside, hinside, rfl⟩ := ih hmore
      -- a backslash would have been the beginning of an escape, or of none at the end of the text
      have hback : c ≠ '\\' := by
        rintro rfl
        cases hcut : inside ++ '"' :: rest with
        | nil => simp at hcut
        | cons l more => exact hletter l more rfl hcut
      exact ⟨_, .plain hquote hback hcontrol hinside, rfl⟩
  · rintro ⟨inside, hinside, rfl⟩
    induction hinside with
    | nil => rfl
    | plain hquote hback hcontrol _ ih =>
      rw [List.cons_append, readPieces_plain hquote hback hcontrol, ih]
      rfl
    | letter hletter _ ih =>
      simp only [List.cons_append]
      rw [readPieces_letter hletter, ih]
      rfl
    | code hcode _ ih =>
      simp only [List.cons_append]
      rw [readPieces_code hcode, ih]
      rfl

/-! ## Numbers -/

theorem readDigits_eq_some {text digits rest : List Char}
    (h : readDigits text = some (digits, rest)) :
    digits ≠ [] ∧ (∀ c ∈ digits, c.isDigit = true) ∧ text = digits ++ rest := by
  unfold readDigits at h
  rw [List.span_eq_takeWhile_dropWhile] at h
  split at h
  · cases h
  · rename_i hne heq
    cases h
    obtain ⟨rfl, rfl⟩ := Prod.mk.inj heq
    exact ⟨hne, fun c hc => List.mem_takeWhile_imp hc, List.takeWhile_append_dropWhile.symm⟩

theorem readWhole_eq_some {text digits rest : List Char}
    (h : readWhole text = some (digits, rest)) :
    readDigits text = some (digits, rest) ∧ ∀ d more, digits ≠ '0' :: d :: more := by
  unfold readWhole at h
  split at h
  · cases h
  · rename_i hzero
    refine ⟨h, ?_⟩
    rintro d more rfl
    exact hzero d more rest h

/-- Without digits behind a point there is no point. -/
theorem readFraction_eq_nil {text rest : List Char} (h : readFraction text = some ([], rest)) :
    text = rest := by
  unfold readFraction at h
  split at h
  · exact absurd rfl (readDigits_eq_some h).1
  · cases h
    rfl

theorem readExponent_eq_none {text rest : List Char} (h : readExponent text = some (none, rest)) :
    text = rest := by
  unfold readExponent at h
  split at h
  · obtain ⟨_, _, h⟩ := Option.map_eq_some_iff.mp h
    cases h
  · obtain ⟨_, _, h⟩ := Option.map_eq_some_iff.mp h
    cases h
  · cases h
    rfl

/-- A numeral that is read without a sign, a point and an exponent stands in the text as its digits. -/
theorem digits_of_readNumeral {text digits rest : List Char}
    (h : readNumeral text = some (⟨false, digits, [], none⟩, rest)) :
    digits ≠ [] ∧ (∀ c ∈ digits, c.isDigit = true) ∧ (∀ d more, digits ≠ '0' :: d :: more) ∧
      text = digits ++ rest := by
  unfold readNumeral at h
  split at h
  rename_i negative unsigned hsign
  obtain ⟨⟨whole, rest₁⟩, hwhole, h⟩ := Option.bind_eq_some_iff.mp h
  obtain ⟨⟨fraction, rest₂⟩, hfraction, h⟩ := Option.bind_eq_some_iff.mp h
  obtain ⟨⟨exponent, rest₃⟩, hexponent, h⟩ := Option.bind_eq_some_iff.mp h
  cases h
  obtain ⟨hdigits, hzero⟩ := readWhole_eq_some hwhole
  obtain ⟨hne, hall, htext⟩ := readDigits_eq_some hdigits
  cases readFraction_eq_nil hfraction
  cases readExponent_eq_none hexponent
  refine ⟨hne, hall, hzero, ?_⟩
  split at hsign
  · cases hsign
  · cases hsign
    exact htext

/-! ## Values -/

/-- How a text begins where a value is read, for the kinds of value that a path is made of. -/
def Raw.ReadFrom (text rest : List Char) : Raw → Prop
  | .string pieces => ∃ inside, skipGap text = '"' :: inside ∧ readPieces inside = some (pieces, rest)
  | .number n => readNumeral (skipGap text) = some (n, rest)
  | .array items => ∃ inside, skipGap text = '[' :: inside ∧
      (items = [] ∧ skipGap inside = ']' :: rest ∨ ∃ fuel, readItems fuel inside = some (items, rest))
  | .null | .bool _ | .object _ => True

theorem readValue_readFrom {fuel : Nat} {text rest : List Char} {item : Raw}
    (h : readValue fuel text = some (item, rest)) : item.ReadFrom text rest := by
  cases fuel with
  | zero => cases h
  | succ fuel =>
    rw [readValue] at h
    split at h
    case h_4 inside heq =>
      obtain ⟨⟨pieces, rest'⟩, hread, h⟩ := Option.map_eq_some_iff.mp h
      cases h
      exact ⟨inside, heq, hread⟩
    case h_5 inside heq =>
      split at h
      · rename_i hclose
        cases h
        exact ⟨inside, heq, Or.inl ⟨rfl, hclose⟩⟩
      · obtain ⟨⟨items, rest'⟩, hread, h⟩ := Option.map_eq_some_iff.mp h
        cases h
        rw [readItems_skipGap] at hread
        exact ⟨inside, heq, Or.inr ⟨fuel, hread⟩⟩
    case h_6 inside heq =>
      split at h
      · cases h
        trivial
      · obtain ⟨⟨members, rest'⟩, hread, h⟩ := Option.map_eq_some_iff.mp h
        cases h
        trivial
    case h_7 =>
      obtain ⟨⟨n, rest'⟩, hread, h⟩ := Option.map_eq_some_iff.mp h
      cases h
      exact hread
    all_goals
      cases h
      trivial

/-- An array is empty where a bracket comes behind the opening one. -/
theorem readValue_array_empty {inside rest : List Char} (hclose : skipGap inside = ']' :: rest)
    (fuel : Nat) : readValue (fuel + 1) ('[' :: inside) = some (.array [], rest) := by
  rw [readValue, skipGap_cons rfl]
  simp only [hclose]

/-- There is no other way for elements to be read. -/
theorem readItems_cases {fuel : Nat} {text rest : List Char} {items : List Raw}
    (h : readItems fuel text = some (items, rest)) :
    ∃ fuel' item behind, fuel = fuel' + 1 ∧ readValue fuel' text = some (item, behind) ∧
      ((∃ tail more, skipGap behind = ',' :: tail ∧ readItems fuel' tail = some (more, rest) ∧
          items = item :: more) ∨
        skipGap behind = ']' :: rest ∧ items = [item]) := by
  cases fuel with
  | zero => cases h
  | succ fuel =>
    rw [readItems] at h
    obtain ⟨⟨item, behind⟩, hitem, h⟩ := Option.bind_eq_some_iff.mp h
    refine ⟨fuel, item, behind, rfl, hitem, ?_⟩
    simp only at h
    split at h
    · rename_i tail hcomma
      obtain ⟨⟨more, rest'⟩, hmore, h⟩ := Option.bind_eq_some_iff.mp h
      cases h
      exact Or.inl ⟨tail, more, hcomma, hmore, rfl⟩
    · rename_i hclose
      cases h
      exact Or.inr ⟨hclose, rfl⟩
    · cases h

end Json

/-! ## Keys in a text -/

namespace Key

/-- A literal begins with a quote or with a digit. -/
theorem Literal.eq_cons {key : Key} {word : List Char} (h : key.Literal word) :
    ∃ c tail, word = c :: tail ∧ Json.isGap c = false ∧ c ≠ ']' := by
  cases h with
  | @index digits i hdigits hzero =>
    obtain ⟨d, more, rfl⟩ := List.exists_cons_of_ne_nil hdigits.1
    have hd : Json.startsNumber d = true := by
      simp [Json.startsNumber, hdigits.2.1 d List.mem_cons_self]
    exact ⟨d, more, rfl, Json.isGap_of_startsNumber hd, Json.ne_of_startsNumber hd rfl⟩
  | name hquoted hs => exact ⟨_, _, rfl, rfl, by decide⟩

/-- **A literal is read** as an element of the form of its key, if no number goes on behind it. -/
theorem Literal.exists_readValue {key : Key} {word : List Char} (h : key.Literal word) (fuel : Nat)
    {rest : List Char} (hstop : Json.Stops rest) :
    ∃ item, Json.readValue (fuel + 1) (word ++ rest) = some (item, rest) ∧ key.HasForm item := by
  cases h with
  | @index digits i hdigits hzero =>
    have hnumeral := Json.readNumeral_digits hdigits.1 hdigits.2.1 hzero hstop
    obtain ⟨d, more, rfl⟩ := List.exists_cons_of_ne_nil hdigits.1
    have hd : Json.startsNumber d = true := by
      simp [Json.startsNumber, hdigits.2.1 d List.mem_cons_self]
    refine ⟨_, ?_, .index hdigits.2.2.1 hdigits.2.2.2⟩
    rw [List.cons_append] at hnumeral ⊢
    rw [Json.readValue_number hd, hnumeral]
    rfl
  | @name inside pieces s hquoted hs =>
    have hread : Json.readPieces (inside ++ '"' :: rest) = some (pieces, rest) :=
      Json.readPieces_eq_some_iff.mpr ⟨inside, hquoted, rfl⟩
    refine ⟨.string pieces, ?_, .name hs⟩
    rw [List.cons_append, List.append_assoc, List.singleton_append]
    exact Json.readValue_quote hread fuel

/-- **What is read as a key** is a literal of it, with blanks in front. -/
theorem HasForm.exists_literal {key : Key} {item : Json.Raw} (h : key.HasForm item) {fuel : Nat}
    {text rest : List Char} (hread : Json.readValue fuel text = some (item, rest)) :
    ∃ gap word, Json.Gaps gap ∧ key.Literal word ∧ text = gap ++ (word ++ rest) := by
  obtain ⟨gap, hgap, htext⟩ := Json.exists_gaps text
  have hfrom := Json.readValue_readFrom hread
  cases h with
  | @index digits i hdigits hi =>
    obtain ⟨hne, hall, hzero, hskip⟩ := Json.digits_of_readNumeral hfrom
    rw [hskip] at htext
    exact ⟨gap, digits, hgap, .index ⟨hne, hall, hdigits, hi⟩ hzero, htext⟩
  | name hs =>
    obtain ⟨inside, hskip, hpieces⟩ := hfrom
    obtain ⟨body, hquoted, rfl⟩ := Json.readPieces_eq_some_iff.mp hpieces
    refine ⟨gap, _, hgap, .name hquoted hs, ?_⟩
    rw [htext, hskip]
    simp

end Key

/-! ## Arrays of keys -/

/-- All elements are read exactly when each is. -/
theorem mapM_eq_some_iff {α β : Type} {f : α → Option β} {xs : List α} {ys : List β} :
    xs.mapM f = some ys ↔ List.Forall₂ (fun y x => f x = some y) ys xs := by
  induction xs generalizing ys with
  | nil =>
    rw [List.mapM_nil, List.forall₂_nil_right_iff]
    simp [eq_comm]
  | cons x xs ih =>
    rw [List.mapM_cons, List.forall₂_cons_right_iff]
    simp only [Option.bind_eq_bind, Option.bind_eq_some_iff, Option.pure_def, Option.some.injEq, ih]
    constructor
    · rintro ⟨y, hy, ys, hys, rfl⟩
      exact ⟨y, ys, hy, hys, rfl⟩
    · rintro ⟨y, ys, hy, hys, rfl⟩
      exact ⟨y, hy, ys, hys, rfl⟩

namespace Path

theorem Listed.length_le {p : Path} {front : List Char} (h : p.Listed front) :
    p.length ≤ front.length := by
  induction h with
  | last _ hword _ =>
    obtain ⟨c, tail, rfl, -, -⟩ := hword.eq_cons
    simp only [List.length_append, List.length_cons, List.length_nil]
    omega
  | cons _ _ _ _ ih =>
    simp only [List.length_append, List.length_cons]
    omega

/-- Listed keys begin, behind blanks, with the first character of a literal. -/
theorem Listed.skipGap_eq_cons {p : Path} {front : List Char} (h : p.Listed front) (rest : List Char) :
    ∃ c tail, Json.skipGap (front ++ rest) = c :: tail ∧ c ≠ ']' := by
  cases h with
  | last hbefore hword _ | cons hbefore hword _ _ =>
    obtain ⟨c, tail, rfl, hgap, hclose⟩ := hword.eq_cons
    rw [List.append_assoc, Json.skipGap_append hbefore, List.cons_append, List.cons_append,
      Json.skipGap_cons hgap]
    exact ⟨c, _, rfl, hclose⟩

/-- **Listed keys are read** up to the closing bracket. -/
theorem Listed.exists_readItems {p : Path} {front : List Char} (h : p.Listed front)
    (rest : List Char) {fuel : Nat} (hfuel : p.length < fuel) :
    ∃ items, Json.readItems fuel (front ++ ']' :: rest) = some (items, rest) ∧
      List.Forall₂ Key.HasForm p items := by
  induction h generalizing fuel with
  | @last key before word behind hbefore hword hbehind =>
    -- one unit of fuel for the list and one for its element
    obtain ⟨fuel, rfl⟩ := Nat.exists_eq_add_of_le' (show 2 ≤ fuel from hfuel)
    have hstop : Json.Stops (behind ++ ']' :: rest) :=
      .gaps hbehind (.cons (by decide) rest)
    obtain ⟨item, hitem, hform⟩ := hword.exists_readValue fuel hstop
    refine ⟨[item], ?_, .cons hform .nil⟩
    rw [← Json.readValue_gaps hbefore] at hitem
    rw [List.append_assoc, List.append_assoc]
    apply Json.readItems_close hitem
    rw [Json.skipGap_append hbehind, Json.skipGap_cons rfl]
  | @cons key before word behind tail p hbefore hword hbehind _ ih =>
    rw [List.length_cons] at hfuel
    obtain ⟨fuel, rfl⟩ := Nat.exists_eq_add_of_le' (show 2 ≤ fuel by omega)
    have hless : List.length p < fuel + 1 := by omega
    have hstop : Json.Stops (behind ++ ',' :: (tail ++ ']' :: rest)) :=
      .gaps hbehind (.cons (by decide) _)
    obtain ⟨item, hitem, hform⟩ := hword.exists_readValue fuel hstop
    obtain ⟨items, hitems, hforms⟩ := ih hless
    refine ⟨item :: items, ?_, .cons hform hforms⟩
    rw [← Json.readValue_gaps hbefore] at hitem
    rw [List.append_assoc, List.append_assoc, List.append_assoc, List.cons_append]
    refine Json.readItems_comma hitem ?_ hitems
    rw [Json.skipGap_append hbehind, Json.skipGap_cons rfl]

/-- **What is read as keys**, up to a closing bracket, is a list of them. -/
theorem exists_listed_of_readItems {p : Path} {items : List Json.Raw}
    (hkeys : List.Forall₂ Key.HasForm p items) {fuel : Nat} {text rest : List Char}
    (h : Json.readItems fuel text = some (items, rest)) :
    ∃ front, p.Listed front ∧ text = front ++ ']' :: rest := by
  induction hkeys generalizing fuel text with
  | nil =>
    obtain ⟨_, _, _, -, -, ⟨_, _, -, -, heq⟩ | ⟨-, heq⟩⟩ := Json.readItems_cases h
    · cases heq
    · cases heq
  | @cons key item p items hkey hkeys ih =>
    obtain ⟨fuel, item', behind, rfl, hitem, hnext⟩ := Json.readItems_cases h
    obtain ⟨gap, hgap, hbehind⟩ := Json.exists_gaps behind
    rcases hnext with ⟨tail, more, hcomma, hmore, heq⟩ | ⟨hclose, heq⟩
    · cases heq
      obtain ⟨before, word, hbefore, hword, rfl⟩ := hkey.exists_literal hitem
      obtain ⟨front, hfront, rfl⟩ := ih hmore
      refine ⟨_, .cons hbefore hword hgap hfront, ?_⟩
      rw [hbehind, hcomma]
      simp
    · cases heq
      cases hkeys
      obtain ⟨before, word, hbefore, hword, rfl⟩ := hkey.exists_literal hitem
      refine ⟨_, .last hbefore hword hgap, ?_⟩
      rw [hbehind, hclose]
      simp

/-! ## Texts of paths -/

/-- **An array of keys is read**, up to the blanks behind it. -/
theorem ArrayText.exists_read {p : Path} {text : List Char} (h : p.ArrayText text) :
    ∃ items behind, Json.Gaps behind ∧ Json.Raw.read text = some (.array items, behind) ∧
      List.Forall₂ Key.HasForm p items := by
  cases h with
  | @empty before inside behind hbefore hinside hbehind =>
    refine ⟨[], behind, hbehind, ?_, .nil⟩
    rw [Json.Raw.read, Json.readValue_gaps hbefore]
    apply Json.readValue_array_empty
    rw [Json.skipGap_append hinside, Json.skipGap_cons rfl]
  | @keys _ before inside behind hbefore hinside hbehind =>
    have hlength := hinside.length_le
    have hfuel : p.length < 2 * (before ++ '[' :: (inside ++ ']' :: behind)).length + 1 := by
      simp only [List.length_append, List.length_cons]
      omega
    obtain ⟨items, hitems, hkeys⟩ := hinside.exists_readItems behind hfuel
    refine ⟨items, behind, hbehind, ?_, hkeys⟩
    obtain ⟨c, tail, hskip, hclose⟩ := hinside.skipGap_eq_cons (']' :: behind)
    rw [← Json.readItems_skipGap, hskip] at hitems
    rw [Json.Raw.read, Json.readValue_gaps hbefore, Json.readValue_array hskip hclose, hitems]
    rfl

/-- A text is read as a path if its structure is an array of elements of the form of the keys. -/
theorem ofJsonText?_eq_some_iff_raw {text : String} {p : Path} :
    ofJsonText? text = some p ↔
      ∃ items, Json.Raw.readAll text = some (.array items) ∧ List.Forall₂ Key.HasForm p items := by
  unfold ofJsonText? Json.readRecord
  rw [Option.bind_eq_some_iff]
  constructor
  · rintro ⟨raw, hraw, hitems⟩
    obtain ⟨items, harray, hkeys⟩ := Option.bind_eq_some_iff.mp hitems
    cases raw with
    | array items' =>
      cases harray
      rw [mapM_eq_some_iff] at hkeys
      exact ⟨items, hraw, hkeys.imp fun key item h => Key.settle_bind_ofJson?_eq_some_iff.mp h⟩
    | null | bool | number | string | object => cases harray
  · rintro ⟨items, hraw, hkeys⟩
    refine ⟨.array items, hraw, ?_⟩
    show items.mapM _ = some p
    rw [mapM_eq_some_iff]
    exact hkeys.imp fun key item h => Key.settle_bind_ofJson?_eq_some_iff.mpr h

/-- **The texts of paths.** A text is read as a path exactly when it is an array of the keys of it. -/
theorem ofJsonText?_eq_some_iff {text : String} {p : Path} :
    ofJsonText? text = some p ↔ p.ArrayText text.toList := by
  rw [ofJsonText?_eq_some_iff_raw]
  constructor
  · rintro ⟨items, hall, hkeys⟩
    obtain ⟨behind, hbehind, hread⟩ := Json.readAll_eq_some_iff.mp hall
    obtain ⟨inside, hskip, hinside⟩ := Json.readValue_readFrom hread
    obtain ⟨before, hbefore, htext⟩ := Json.exists_gaps text.toList
    rw [htext, hskip]
    rcases hinside with ⟨rfl, hclose⟩ | ⟨fuel, hitems⟩
    · cases hkeys
      obtain ⟨gap, hgap, hinside⟩ := Json.exists_gaps inside
      rw [hinside, hclose]
      exact .empty hbefore hgap hbehind
    · obtain ⟨front, hfront, rfl⟩ := exists_listed_of_readItems hkeys hitems
      exact .keys hbefore hfront hbehind
  · intro h
    obtain ⟨items, behind, hbehind, hread, hkeys⟩ := h.exists_read
    exact ⟨items, Json.readAll_eq_some_iff.mpr ⟨behind, hbehind, hread⟩, hkeys⟩

end Path

/-! ## Written paths -/

/-- The value of a key is that of an integer of 64 bits or of a text, and is read as the key. -/
theorem Key.integral_toJson {key : Key} (h : ∀ i, key = .index i → i < 18446744073709551616) :
    key.toJson.Integral ∧ Key.ofJson? key.toJson = some key := by
  cases key with
  | index i =>
    have hi := h i rfl
    refine ⟨?_, Key.ofJson?_integer_eq_some_iff.mpr ⟨i, hi, rfl, rfl⟩⟩
    show (_ : Int) ≤ i ∧ (i : Int) ≤ Json.maxWord
    unfold Json.maxWord
    omega
  | name s => exact ⟨trivial, rfl⟩

/-- The structure of the text of a key has the form of the key. -/
theorem Key.hasForm_raw {key : Key} (h : ∀ i, key = .index i → i < 18446744073709551616) :
    key.HasForm key.toJson.raw := by
  obtain ⟨hintegral, hread⟩ := Key.integral_toJson h
  have hdepth : key.toJson.depth ≤ 0 := by cases key <;> exact Nat.le_refl 0
  have hsettle : key.toJson.raw.settle 0 = some key.toJson := by
    rw [Json.settle_raw hintegral, if_pos hdepth]
  apply Key.settle_bind_ofJson?_eq_some_iff.mp
  rw [hsettle]
  exact hread

namespace Path

theorem integral_toJson {p : Path} (h : ∀ i, .index i ∈ p → i < 18446744073709551616) :
    p.toJson.Integral := by
  show Json.IntegralItems (p.map Key.toJson)
  induction p with
  | nil => trivial
  | cons key rest ih =>
    have hkey := Key.integral_toJson fun i hi => h i (hi ▸ List.mem_cons_self)
    exact ⟨hkey.1, ih fun i hi => h i (List.mem_cons_of_mem key hi)⟩

theorem hasForm_rawItems {p : Path} (h : ∀ i, .index i ∈ p → i < 18446744073709551616) :
    List.Forall₂ Key.HasForm p (Json.rawItems (p.map Key.toJson)) := by
  induction p with
  | nil => exact .nil
  | cons key rest ih =>
    have hkey := Key.hasForm_raw fun i hi => h i (hi ▸ List.mem_cons_self)
    exact .cons hkey (ih fun i hi => h i (List.mem_cons_of_mem key hi))

/-- **Reading a written path.** Every path of indices below `2^64` and of any names is read as itself. -/
theorem ofJsonText?_text {p : Path} (h : ∀ i, .index i ∈ p → i < 18446744073709551616) :
    ofJsonText? p.toJson.text = some p := by
  rw [ofJsonText?_eq_some_iff_raw]
  refine ⟨_, ?_, hasForm_rawItems h⟩
  rw [Json.readAll_eq_some_iff]
  exact ⟨[], nofun, Json.read_text (integral_toJson h)⟩

/-- **The JSON form of a path is lossless.** Every path of indices below `2^64` and of any names is read from
    its own text, so two such paths with the same text are the same, key by key. No text is a literal both
    of an index and of a name. And the texts that are read as a path are the arrays of literals of its
    keys: of strings, and of integer literals below `2^64`. -/
theorem json_lossless :
    (∀ p : Path, (∀ i, .index i ∈ p → i < 18446744073709551616) →
      ofJsonText? p.toJson.text = some p) ∧
    (∀ p q : Path, (∀ i, .index i ∈ p → i < 18446744073709551616) →
      (∀ i, .index i ∈ q → i < 18446744073709551616) → p.toJson.text = q.toJson.text → p = q) ∧
    (∀ (i : Nat) (s : String) (word : List Char),
      (Key.index i).Literal word → ¬ (Key.name s).Literal word) ∧
    (∀ (text : String) (p : Path), ofJsonText? text = some p ↔ p.ArrayText text.toList) ∧
    (∀ text : String, (ofJsonText? text).isSome ↔ ∃ p : Path, p.ArrayText text.toList) := by
  refine ⟨fun p h => ofJsonText?_text h, ?_, ?_, fun text p => ofJsonText?_eq_some_iff, ?_⟩
  · intro p q hp hq htext
    have hread := ofJsonText?_text hp
    rw [htext, ofJsonText?_text hq] at hread
    exact (Option.some.inj hread).symm
  · -- a quote is not a digit
    intro i s word hindex hname
    cases hname
    cases hindex with
    | index hdigits _ => exact absurd (hdigits.2.1 '"' List.mem_cons_self) (by decide)
  · intro text
    simp only [Option.isSome_iff_exists, ofJsonText?_eq_some_iff]

/-- An index, names with the same digits, and a name whose characters have escapes. A text with blanks, and
    with a digit that is written as a code, is read as well; a number with a sign is not. -/
theorem json_lossless_digits :
    let p : Path := [.index 5, .name "5", .name "+5", .name "\x01\"é"]
    p.toJson.text = "[5,\"5\",\"+5\",\"\\u0001\\\"é\"]" ∧ ofJsonText? p.toJson.text = some p ∧
      Path.ArrayText [.index 5, .name "5"] " [ 5 ,\"\\u0035\"]\n".toList ∧
      ¬ ∃ p : Path, p.ArrayText "[-0]".toList := by
  intro p
  obtain ⟨hround, -, -, hiff, hsome⟩ := json_lossless
  refine ⟨by decide +kernel, hround p (by simp [p]), (hiff _ _).mp (by decide +kernel), ?_⟩
  rw [← hsome]
  decide +kernel

end Path

end LosslessTree
