import Mathlib.Data.List.Forall2
import LosslessTree.Path.Printer
import LosslessTree.Proofs.PathGrammar

/-!
# `Proofs.PathText` — a written path read again

A path is written key by key with dots between the keys, and the text of each key is a segment of the
grammar of paths (`Key.spelledBy_chars`). So a written path is read without a fault, one key for
every key that was written.

The key read is the key written, with one exception. A name is put in quotes when it is all digits, and
a bare word is an index also with a plus sign in front of its digits. So a name such as `+5` is written
bare and read as the index 5.

## Contents
- **`Key.signedIndex?`, `Key.reread`**, the exception, and what is read in place of a key.
- **`Key.spelledBy_chars`**, the segment of a written key.
- **`Path.parse_text`**, the path that is read where a path was written.
- **`Key.ReadAs`** and `Path.parse_text_readAs`, the same without a reference to how numbers are read.
-/

namespace LosslessTree

/-! ## Names that look like indices -/

namespace Key

/-- The index that a name spells which is a plus sign and the digits of a number below `2^64`. -/
def signedIndex? : Key → Option Nat
  | .index _ => none
  | .name s =>
    match s.toList with
    | '+' :: digits => digitsIndex? digits
    | _ => none

/-- The key that is read where a key was written. -/
def reread (key : Key) : Key :=
  match key.signedIndex? with
  | some i => .index i
  | none => key

theorem reread_eq_self {key : Key} (h : key.signedIndex? = none) : key.reread = key := by
  simp [reread, h]

theorem reread_eq_index {key : Key} {i : Nat} (h : key.signedIndex? = some i) :
    key.reread = .index i := by
  simp [reread, h]

theorem signedIndex?_eq_some_iff {s : String} {i : Nat} :
    (name s).signedIndex? = some i ↔ ∃ digits, s.toList = '+' :: digits ∧ Digits digits i := by
  simp only [signedIndex?]
  split
  · rename_i digits hdigits
    simp [hdigits, digitsIndex?_eq_some_iff]
  · rename_i hplain
    simp only [reduceCtorEq, false_iff]
    rintro ⟨digits, hdigits, -⟩
    exact hplain digits hdigits

/-! ## Segments of written keys -/

/-- Decimal digits of an index spell that index. -/
theorem digits_toDigits {i : Nat} (h : i < indexBound) : Digits (Nat.toDigits 10 i) i := by
  refine ⟨Nat.toDigits_ne_nil, ?_, Nat.ofDigitChars_ten_toDigits, h⟩
  intro c hc
  exact Nat.isDigit_of_mem_toDigits (by decide) (by decide) hc

/-- A digit does not call for quotes. -/
theorem isSpecial_of_isDigit {c : Char} (h : c.isDigit = true) : isSpecial c = false := by
  have hrange : 48 ≤ c.toNat ∧ c.toNat ≤ 57 := by
    simp only [Char.isDigit, Bool.and_eq_true, decide_eq_true_eq, ge_iff_le,
      UInt32.le_iff_toNat_le] at h
    exact h
  have hblank : Text.isBlank c = false := by
    apply List.any_eq_false.mpr
    intro r hr
    have hout : r.2 < 48 ∨ 57 < r.1 := by
      revert r
      decide
    simp only [Bool.and_eq_true, decide_eq_true_eq]
    omega
  have hne : ∀ d : Char, ¬ (48 ≤ d.toNat ∧ d.toNat ≤ 57) → c ≠ d := by
    rintro d hd rfl
    exact hd hrange
  simp only [isSpecial, hblank, Bool.or_false, Bool.or_eq_false_iff, beq_eq_false_iff_ne]
  exact ⟨⟨⟨hne _ (by decide), hne _ (by decide)⟩, hne _ (by decide)⟩, hne _ (by decide)⟩

theorem isPlain_of_not_special {c : Char} (h : isSpecial c = false) : IsPlain c := by
  simp only [isSpecial, Bool.or_eq_false_iff, beq_eq_false_iff_ne] at h
  obtain ⟨⟨⟨⟨hdot, hdouble⟩, hsingle⟩, -⟩, hblank⟩ := h
  exact ⟨hdot, hdouble, hsingle, hblank⟩

/-- A name that looks like an index with a plus sign is not put in quotes. -/
theorem signedIndex?_of_quoted {s : String} (h : needsQuotes s.toList = true) :
    (name s).signedIndex? = none := by
  apply Option.eq_none_iff_forall_ne_some.mpr
  intro i hi
  obtain ⟨digits, hdigits, hindex⟩ := signedIndex?_eq_some_iff.mp hi
  have hall := hindex.2.1
  -- the plus sign keeps the name from being all digits, and no character of it is special
  simp only [needsQuotes, hdigits, List.all_cons, List.any_cons, Bool.or_eq_true] at h
  rcases h with h | h | h
  · exact absurd (Bool.and_eq_true_iff.mp h).1 (by decide)
  · exact absurd h (by decide)
  · obtain ⟨c, hc, hspecial⟩ := List.any_eq_true.mp h
    rw [isSpecial_of_isDigit (hall c hc)] at hspecial
    cases hspecial

/-- A name that is written bare is not all digits, so only a plus sign in front can make it an index. -/
theorem spelledBy_reread_of_bare {s : String} (h : needsQuotes s.toList = false) :
    (name s).reread.SpelledBy s.toList := by
  simp only [needsQuotes, Bool.or_eq_false_iff, List.all_eq_false, List.any_eq_false] at h
  obtain ⟨⟨c, hc, hdigit⟩, hspecial⟩ := h
  have hbare : Bare s.toList :=
    ⟨List.ne_nil_of_mem hc, fun d hd => isPlain_of_not_special (by simpa using hspecial d hd)⟩
  have hunsigned : ∀ i, ¬ Digits s.toList i := fun i hi => hdigit (hi.2.1 c hc)
  cases hsigned : (name s).signedIndex? with
  | some i =>
    rw [reread_eq_index hsigned]
    exact .index hbare (Or.inr (signedIndex?_eq_some_iff.mp hsigned))
  | none =>
    have hname := SpelledBy.name hbare (fun i hi => by
      rcases hi with hi | hi
      · exact hunsigned i hi
      · rw [signedIndex?_eq_some_iff.mpr hi] at hsigned
        cases hsigned)
    rw [String.ofList_toList] at hname
    rw [reread_eq_self hsigned]
    exact hname

/-- Between double quotes the written form of a character means that character. -/
theorem escaped_escape (c : Char) : Escaped (escape c) [c] := by
  unfold escape
  split
  · exact .pair (.itself (by decide) (by decide) (by decide)) .nil
  · exact .pair (.itself (by decide) (by decide) (by decide)) .nil
  · exact .pair .lineFeed .nil
  · exact .pair .tab .nil
  · exact .pair .carriageReturn .nil
  · -- any other character is written as it is and neither ends the word nor escapes
    rename_i hquote hback _ _ _
    exact .plain hquote hback .nil

theorem escaped_flatMap_escape (cs : List Char) : Escaped (cs.flatMap escape) cs := by
  induction cs with
  | nil => exact .nil
  | cons c cs ih =>
    rw [List.flatMap_cons]
    exact (escaped_escape c).append ih

/-- **The segment of a written key** spells the key, or the index that its name looks like. -/
theorem spelledBy_chars {key : Key} (h : ∀ i, key = .index i → i < indexBound) :
    key.reread.SpelledBy key.chars := by
  cases key with
  | index i =>
    have hdigits := digits_toDigits (h i rfl)
    refine .index ⟨hdigits.1, ?_⟩ (Or.inl hdigits)
    intro c hc
    exact isPlain_of_not_special (isSpecial_of_isDigit (hdigits.2.1 c hc))
  | name s =>
    cases hquotes : needsQuotes s.toList with
    | true =>
      have hquoted := SpelledBy.double (escaped_flatMap_escape s.toList)
      rw [String.ofList_toList] at hquoted
      rw [reread_eq_self (signedIndex?_of_quoted hquotes), chars, if_pos hquotes]
      exact hquoted
    | false =>
      rw [chars, if_neg (by simp [hquotes])]
      exact spelledBy_reread_of_bare hquotes

end Key

/-! ## Written paths -/

namespace Path

/-- A written path is cut into the texts of its keys. -/
theorem divided_chars {p : Path} (hne : p ≠ []) (h : ∀ i, .index i ∈ p → i < Key.indexBound) :
    Divided (p.map Key.reread) (p.map Key.chars) p.chars := by
  induction p with
  | nil => exact absurd rfl hne
  | cons key rest ih =>
    have hkey := Key.spelledBy_chars fun i hi => h i (hi ▸ List.mem_cons_self)
    cases rest with
    | nil => exact .last hkey
    | cons next rest =>
      have hrest := ih (List.cons_ne_nil next rest) fun i hi => h i (List.mem_cons_of_mem key hi)
      exact .cons hkey hrest

/-- **Reading a written path.** Every path of indices below `2^64` and of any names is read without a
    fault, and key by key as `Key.reread` says. -/
theorem parse_text {p : Path} (h : ∀ i, .index i ∈ p → i < Key.indexBound) :
    parse p.text = .ok (p.map Key.reread) := by
  by_cases hp : p = []
  · subst hp
    rfl
  · have hdivided := divided_chars hp h
    rw [← String.toList_ofList (l := p.chars)] at hdivided
    exact hdivided.parse_eq

end Path

/-! ## What is read in place of a key -/

/-- What is read where a key was written: a name that is a plus sign and the digits of a number below `2^64` is
    read as the index of that number, every other key as itself. -/
inductive Key.ReadAs : Key → Key → Prop
  | signed {digits : List Char} {i : Nat} :
      Digits digits i → ReadAs (.name (String.ofList ('+' :: digits))) (.index i)
  | itself {key : Key} :
      (∀ digits i, Digits digits i → key ≠ .name (String.ofList ('+' :: digits))) → ReadAs key key

theorem Key.readAs_reread (key : Key) : key.ReadAs key.reread := by
  cases hsigned : key.signedIndex? with
  | some i =>
    rw [reread_eq_index hsigned]
    cases key with
    | index j => cases hsigned
    | name s =>
      obtain ⟨digits, hs, hdigits⟩ := signedIndex?_eq_some_iff.mp hsigned
      rw [← String.ofList_toList (s := s), hs]
      exact .signed hdigits
  | none =>
    rw [reread_eq_self hsigned]
    refine .itself ?_
    rintro digits i hdigits rfl
    rw [signedIndex?_eq_some_iff.mpr ⟨digits, String.toList_ofList, hdigits⟩] at hsigned
    cases hsigned

/-- **Writing a path and reading it.** Every path of indices below `2^64` and of any names is read without a
    fault. A key is read for every key that was written: the index of the number in place of a name that is
    a plus sign and a number below `2^64`, and the key itself in every other place. -/
theorem Path.parse_text_readAs (p : Path)
    (h : ∀ i, .index i ∈ p → i < 18446744073709551616) :
    ∃ read, Path.parse p.text = .ok read ∧ List.Forall₂ Key.ReadAs p read := by
  refine ⟨p.map Key.reread, Path.parse_text h, ?_⟩
  rw [List.forall₂_map_right_iff, List.forall₂_same]
  exact fun key _ => key.readAs_reread

/-- An index, an empty name, a name with a dot and a quote, a name of digits, and one with a plus sign too
    many: these are read as they were written. The name `+07` is read as the index 7. -/
theorem Path.parse_text_readAs_mixed :
    let p : Path := [.index 3, .name "", .name "a.\"b", .name "12", .name "++1", .name "+07"]
    let read : Path := [.index 3, .name "", .name "a.\"b", .name "12", .name "++1", .index 7]
    p.text = "3.\"\".\"a.\\\"b\".\"12\".++1.+07" ∧ Path.parse p.text = .ok read ∧
      List.Forall₂ Key.ReadAs p read := by
  intro p read
  have htext : p.text = "3.\"\".\"a.\\\"b\".\"12\".++1.+07" := by decide +kernel
  obtain ⟨read', hparse, hread⟩ := Path.parse_text_readAs p (by simp [p])
  have hcomputed : Path.parse p.text = .ok read := Path.parse_text (by simp [p, Key.indexBound])
  cases hparse.symm.trans hcomputed
  exact ⟨htext, hparse, hread⟩

end LosslessTree
