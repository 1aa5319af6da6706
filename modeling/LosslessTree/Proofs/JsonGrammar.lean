import Mathlib.Data.List.DropRight
import Mathlib.Data.List.TakeWhile
import LosslessTree.Proofs.JsonText

/-!
# `Proofs.JsonGrammar` — the texts of a JSON value

A value is written on one line or over several. Both ways put the same tokens in the same order, and
differ in the blanks between them: none, or a line end and an indentation in front of every element and
member and of the closing bracket, and a space behind the colon of a member. `Json.Written` are the texts
of a value with any blanks in these places.

The grammar passes over blanks. So it finds in each of these texts the structure `Json.raw` of the value,
and leaves what comes behind it, as long as that does not go on with a number.

## Contents
- **Blanks.** `Json.Gaps`, `Json.skipGap_append`.
- **Tokens.** `Json.readValue_string`, `Json.readValue_integer`, `Json.readItems_close`,
  `Json.readMembers_close`.
- **`Json.Written`**, and `Json.Written.readValue_eq`.
- **On one line.** `Json.written_chars`, `Json.read_text`.
- **Over several lines.** `Json.written_prettyChars`, `Json.readAll_pretty`.
-/

namespace LosslessTree.Json

/-! ## Blanks -/

/-- The characters are blanks between tokens. -/
def Gaps (cs : List Char) : Prop := ∀ c ∈ cs, isGap c = true

theorem skipGap_cons {c : Char} (h : isGap c = false) (tail : List Char) :
    skipGap (c :: tail) = c :: tail := by
  simp [skipGap, h]

theorem skipGap_append {gap : List Char} (h : Gaps gap) (rest : List Char) :
    skipGap (gap ++ rest) = skipGap rest :=
  List.dropWhile_append_of_pos h

theorem skipGap_skipGap (text : List Char) : skipGap (skipGap text) = skipGap text :=
  List.dropWhile_idempotent isGap text

theorem readValue_skipGap (fuel : Nat) (text : List Char) :
    readValue fuel (skipGap text) = readValue fuel text := by
  cases fuel with
  | zero => rfl
  | succ fuel => rw [readValue, readValue, skipGap_skipGap]

theorem readItems_skipGap (fuel : Nat) (text : List Char) :
    readItems fuel (skipGap text) = readItems fuel text := by
  cases fuel with
  | zero => rfl
  | succ fuel => rw [readItems, readItems, readValue_skipGap]

theorem readMembers_skipGap (fuel : Nat) (text : List Char) :
    readMembers fuel (skipGap text) = readMembers fuel text := by
  cases fuel with
  | zero => rfl
  | succ fuel => rw [readMembers, readMembers, skipGap_skipGap]

/-- Blanks in front of a value are passed over. -/
theorem readValue_gaps {gap : List Char} (h : Gaps gap) (fuel : Nat) (text : List Char) :
    readValue fuel (gap ++ text) = readValue fuel text := by
  rw [← readValue_skipGap, skipGap_append h, readValue_skipGap]

/-- Blanks in front of members are passed over. -/
theorem readMembers_gaps {gap : List Char} (h : Gaps gap) (fuel : Nat) (text : List Char) :
    readMembers fuel (gap ++ text) = readMembers fuel text := by
  rw [← readMembers_skipGap, skipGap_append h, readMembers_skipGap]

/-- No number goes on with a blank. -/
theorem Stops.gaps {gap rest : List Char} (hgap : Gaps gap) (hstop : Stops rest) :
    Stops (gap ++ rest) := by
  cases gap with
  | nil => exact hstop
  | cons c tail =>
    have hc := hgap c List.mem_cons_self
    simp only [isGap, Bool.or_eq_true, beq_iff_eq] at hc
    apply Stops.cons
    rcases hc with ((rfl | rfl) | rfl) | rfl
    all_goals decide

/-! ## Tokens -/

/-- Whether a number may begin with a character. -/
def startsNumber (c : Char) : Bool := c.isDigit || c == '-'

theorem integerChars_eq_cons (n : Int) :
    ∃ c tail, integerChars n = c :: tail ∧ startsNumber c = true := by
  by_cases hn : n < 0
  · exact ⟨'-', Nat.toDigits 10 n.natAbs, if_pos hn, rfl⟩
  · obtain ⟨d, digits, hdigits, hd⟩ := exists_digit_cons n.natAbs
    exact ⟨d, digits, (if_neg hn).trans hdigits, by simp [startsNumber, hd]⟩

theorem ne_of_startsNumber {c d : Char} (hc : startsNumber c = true) (hd : startsNumber d = false) :
    c ≠ d := by
  rintro rfl
  rw [hc] at hd
  cases hd

theorem isGap_of_startsNumber {c : Char} (h : startsNumber c = true) : isGap c = false := by
  simp only [isGap, Bool.or_eq_false_iff, beq_eq_false_iff_ne]
  exact ⟨⟨⟨ne_of_startsNumber h rfl, ne_of_startsNumber h rfl⟩, ne_of_startsNumber h rfl⟩,
    ne_of_startsNumber h rfl⟩

/-- A value that begins with a quote is a string. -/
theorem readValue_quote {inside rest : List Char} {pieces : List Piece}
    (h : readPieces inside = some (pieces, rest)) (fuel : Nat) :
    readValue (fuel + 1) ('"' :: inside) = some (.string pieces, rest) := by
  rw [readValue, skipGap_cons rfl]
  show (readPieces inside).map _ = _
  rw [h]
  rfl

/-- A string is read up to its closing quote. -/
theorem readValue_string (s : List Char) (fuel : Nat) (rest : List Char) :
    readValue (fuel + 1) (stringChars s ++ rest) = some (.string (s.map Piece.ofChar), rest) := by
  rw [stringChars, List.cons_append, List.cons_append, List.append_assoc, List.singleton_append]
  exact readValue_quote (readPieces_flatMap s rest) fuel

/-- No other value begins like a number. -/
theorem readValue_number {c : Char} (h : startsNumber c = true) (fuel : Nat) (tail : List Char) :
    readValue (fuel + 1) (c :: tail) =
      (readNumeral (c :: tail)).map fun (n, rest) => (.number n, rest) := by
  rw [readValue, skipGap_cons (isGap_of_startsNumber h)]
  split
  case h_7 => rfl
  all_goals
    rename_i heq
    rw [(List.cons.inj heq).1] at h
    cases h

/-- An integer is a value up to where its digits stop. -/
theorem readValue_integer (n : Int) (fuel : Nat) {rest : List Char} (hstop : Stops rest) :
    readValue (fuel + 1) (integerChars n ++ rest) = some (.number (Numeral.ofInt n), rest) := by
  obtain ⟨c, tail, hchars, hc⟩ := integerChars_eq_cons n
  have hread := readNumeral_integerChars n hstop
  rw [hchars, List.cons_append] at hread ⊢
  rw [readValue_number hc, hread]
  rfl

/-- An array that does not close at once has elements. -/
theorem readValue_array {c : Char} {inside tail : List Char} (hskip : skipGap inside = c :: tail)
    (hclose : c ≠ ']') (fuel : Nat) :
    readValue (fuel + 1) ('[' :: inside) =
      (readItems fuel (c :: tail)).map fun (items, rest) => (.array items, rest) := by
  rw [readValue, skipGap_cons rfl]
  simp only [hskip]
  split
  · rename_i heq
    exact absurd (List.cons.inj heq).1 hclose
  · rfl

/-- An object that goes on with a quote has members. -/
theorem readValue_object {inside tail : List Char} (hskip : skipGap inside = '"' :: tail) (fuel : Nat) :
    readValue (fuel + 1) ('{' :: inside) =
      (readMembers fuel ('"' :: tail)).map fun (members, rest) => (.object members, rest) := by
  rw [readValue, skipGap_cons rfl]
  simp only [hskip]
  rfl

/-- The name of a member is read up to the colon behind it. -/
theorem readMembers_name (name : List Char) (fuel : Nat) (text : List Char) :
    readMembers (fuel + 1) (stringChars name ++ ':' :: text) = (do
      let (value, rest) ← readValue fuel text
      match skipGap rest with
      | ',' :: rest =>
        let (members, rest) ← readMembers fuel rest
        return ((name.map Piece.ofChar, value) :: members, rest)
      | '}' :: rest => return ([(name.map Piece.ofChar, value)], rest)
      | _ => none) := by
  rw [stringChars, List.cons_append, List.cons_append, List.append_assoc, readMembers,
    skipGap_cons rfl]
  simp only [List.singleton_append, readPieces_flatMap]
  rfl

/-- An element is the last one where a bracket comes behind it. -/
theorem readItems_close {fuel : Nat} {text behind rest : List Char} {item : Raw}
    (hitem : readValue fuel text = some (item, behind)) (hclose : skipGap behind = ']' :: rest) :
    readItems (fuel + 1) text = some ([item], rest) := by
  rw [readItems, hitem, Option.bind_eq_bind, Option.bind_some]
  simp only [hclose]
  rfl

/-- Other elements follow where a comma comes behind an element. -/
theorem readItems_comma {fuel : Nat} {text behind tail rest : List Char} {item : Raw}
    {more : List Raw} (hitem : readValue fuel text = some (item, behind))
    (hcomma : skipGap behind = ',' :: tail) (hmore : readItems fuel tail = some (more, rest)) :
    readItems (fuel + 1) text = some (item :: more, rest) := by
  rw [readItems, hitem, Option.bind_eq_bind, Option.bind_some]
  simp only [hcomma, hmore]
  rfl

/-- A member is the last one where a brace comes behind it. -/
theorem readMembers_close {name text behind rest : List Char} {fuel : Nat} {value : Raw}
    (hvalue : readValue fuel text = some (value, behind)) (hclose : skipGap behind = '}' :: rest) :
    readMembers (fuel + 1) (stringChars name ++ ':' :: text) =
      some ([(name.map Piece.ofChar, value)], rest) := by
  rw [readMembers_name, hvalue, Option.bind_eq_bind, Option.bind_some]
  simp only [hclose]
  rfl

/-- Other members follow where a comma comes behind a member. -/
theorem readMembers_comma {name text behind tail rest : List Char} {fuel : Nat} {value : Raw}
    {more : List (List Piece × Raw)} (hvalue : readValue fuel text = some (value, behind))
    (hcomma : skipGap behind = ',' :: tail) (hmore : readMembers fuel tail = some (more, rest)) :
    readMembers (fuel + 1) (stringChars name ++ ':' :: text) =
      some ((name.map Piece.ofChar, value) :: more, rest) := by
  rw [readMembers_name, hvalue, Option.bind_eq_bind, Option.bind_some]
  simp only [hcomma, hmore]
  rfl

/-- A text is one value if that value is read from its front and only blanks come behind it. -/
theorem readAll_eq_some_iff {text : String} {raw : Raw} :
    Raw.readAll text = some raw ↔
      ∃ behind, Gaps behind ∧ Raw.read text.toList = some (raw, behind) := by
  unfold Raw.readAll
  cases hread : Raw.read text.toList with
  | none => simp
  | some result =>
    obtain ⟨raw', rest⟩ := result
    have hgaps : (skipGap rest).isEmpty = true ↔ Gaps rest := by
      rw [List.isEmpty_iff, skipGap, List.dropWhile_eq_nil_iff]
      rfl
    by_cases hrest : Gaps rest
    · simp [hgaps.mpr hrest, hrest]
    · have hfull : (skipGap rest).isEmpty = false := by
        rw [← Bool.not_eq_true, hgaps]
        exact hrest
      simp [hfull, hrest]

/-! ## The grammar on a written value -/

mutual

/-- Texts of a value: its tokens, with blanks in front of elements and members, behind the colon of a member,
    and in front of a closing bracket. -/
inductive Written : Json → List Char → Prop
  | null : Written .null ['n', 'u', 'l', 'l']
  | bool (b : Bool) : Written (.bool b) (Json.bool b).chars
  | integer (n : Int) : Written (.integer n) (integerChars n)
  | string (s : String) : Written (.string s) (stringChars s.toList)
  | emptyArray : Written (.array []) ['[', ']']
  | array {items : List Json} {inside : List Char} :
      WrittenItems items inside → Written (.array items) ('[' :: inside ++ [']'])
  | emptyObject : Written (.object []) ['{', '}']
  | object {members : List (String × Json)} {inside : List Char} :
      WrittenMembers members inside → Written (.object members) ('{' :: inside ++ ['}'])

/-- Texts of elements, one or more, with commas between them. -/
inductive WrittenItems : List Json → List Char → Prop
  | last {item : Json} {before word behind : List Char} :
      Gaps before → Written item word → Gaps behind → WrittenItems [item] (before ++ word ++ behind)
  | cons {item : Json} {rest : List Json} {before word tail : List Char} :
      Gaps before → Written item word → WrittenItems rest tail →
        WrittenItems (item :: rest) (before ++ word ++ ',' :: tail)

/-- Texts of members, one or more, with commas between them. -/
inductive WrittenMembers : List (String × Json) → List Char → Prop
  | last (name : String) {value : Json} {before between word behind : List Char} :
      Gaps before → Gaps between → Written value word → Gaps behind →
        WrittenMembers [(name, value)]
          (before ++ stringChars name.toList ++ ':' :: (between ++ word) ++ behind)
  | cons (name : String) {value : Json} {rest : List (String × Json)}
      {before between word tail : List Char} :
      Gaps before → Gaps between → Written value word → WrittenMembers rest tail →
        WrittenMembers ((name, value) :: rest)
          (before ++ stringChars name.toList ++ ':' :: (between ++ word) ++ ',' :: tail)

end

/-- A written value begins with a character that is neither a blank nor a closing bracket. -/
theorem Written.eq_cons {j : Json} {word : List Char} (h : Written j word) :
    ∃ c tail, word = c :: tail ∧ isGap c = false ∧ c ≠ ']' := by
  cases h with
  | integer n =>
    obtain ⟨c, tail, hchars, hc⟩ := integerChars_eq_cons n
    exact ⟨c, tail, hchars, isGap_of_startsNumber hc, ne_of_startsNumber hc rfl⟩
  | bool b => cases b <;> exact ⟨_, _, rfl, rfl, by decide⟩
  | null | string | emptyArray | array | emptyObject | object => exact ⟨_, _, rfl, rfl, by decide⟩

theorem WrittenItems.skipGap_eq_cons {items : List Json} {inside : List Char}
    (h : WrittenItems items inside) (rest : List Char) :
    ∃ c tail, skipGap (inside ++ rest) = c :: tail ∧ c ≠ ']' := by
  cases h with
  | last hbefore hword _ | cons hbefore hword _ =>
    obtain ⟨c, tail, rfl, hgap, hclose⟩ := hword.eq_cons
    rw [List.append_assoc, List.append_assoc, skipGap_append hbefore, List.cons_append,
      skipGap_cons hgap]
    exact ⟨c, _, rfl, hclose⟩

theorem WrittenMembers.skipGap_eq_cons {members : List (String × Json)} {inside : List Char}
    (h : WrittenMembers members inside) (rest : List Char) :
    ∃ tail, skipGap (inside ++ rest) = '"' :: tail := by
  cases h with
  | last _ hbefore _ _ _ | cons _ hbefore _ _ _ =>
    rw [List.append_assoc, List.append_assoc, List.append_assoc, skipGap_append hbefore, stringChars,
      List.cons_append, List.cons_append, skipGap_cons rfl]
    exact ⟨_, rfl⟩

mutual

/-- **Reading a written value.** With enough fuel the grammar finds the structure of the value and leaves
    what comes behind it. -/
theorem Written.readValue_eq {j : Json} {word : List Char} (h : Written j word) (fuel : Nat)
    (hfuel : 2 * word.length ≤ fuel) {rest : List Char} (hstop : Stops rest) :
    readValue fuel (word ++ rest) = some (j.raw, rest) := by
  -- the text is not empty, so there is fuel for this value, and twice its length for those inside
  obtain ⟨fuel, rfl⟩ : ∃ n, fuel = n + 1 := by
    obtain ⟨c, tail, rfl, -, -⟩ := h.eq_cons
    rw [List.length_cons] at hfuel
    exact Nat.exists_eq_succ_of_ne_zero (by omega)
  cases h with
  | null | emptyArray | emptyObject => rfl
  | bool b => cases b <;> rfl
  | integer n => exact readValue_integer n fuel hstop
  | string s => exact readValue_string s.toList fuel rest
  | @array items inside hitems =>
    have hread := hitems.readItems_eq fuel (by simp at hfuel; omega) rest
    obtain ⟨c, tail, hskip, hclose⟩ := hitems.skipGap_eq_cons (']' :: rest)
    rw [← readItems_skipGap, hskip] at hread
    rw [List.append_assoc, List.singleton_append, List.cons_append, readValue_array hskip hclose, hread]
    rfl
  | @object members inside hmembers =>
    have hread := hmembers.readMembers_eq fuel (by simp at hfuel; omega) rest
    obtain ⟨tail, hskip⟩ := hmembers.skipGap_eq_cons ('}' :: rest)
    rw [← readMembers_skipGap, hskip] at hread
    rw [List.append_assoc, List.singleton_append, List.cons_append, readValue_object hskip, hread]
    rfl

/-- The elements of an array are read up to its closing bracket. -/
theorem WrittenItems.readItems_eq {items : List Json} {inside : List Char}
    (h : WrittenItems items inside) (fuel : Nat) (hfuel : 2 * inside.length + 1 ≤ fuel)
    (rest : List Char) : readItems fuel (inside ++ ']' :: rest) = some (rawItems items, rest) := by
  obtain ⟨fuel, rfl⟩ : ∃ n, fuel = n + 1 := Nat.exists_eq_succ_of_ne_zero (by omega)
  cases h with
  | @last item before word behind hbefore hword hbehind =>
    simp only [List.length_append] at hfuel
    have hitem := hword.readValue_eq fuel (by omega) (.gaps hbehind (.cons (c := ']') (by decide) rest))
    rw [← readValue_gaps hbefore] at hitem
    rw [List.append_assoc, List.append_assoc]
    apply readItems_close hitem
    rw [skipGap_append hbehind, skipGap_cons rfl]
  | @cons item others before word tail hbefore hword hothers =>
    simp only [List.length_append, List.length_cons] at hfuel
    have hitem := hword.readValue_eq fuel (by omega) (.cons (c := ',') (by decide) (tail ++ ']' :: rest))
    rw [← readValue_gaps hbefore] at hitem
    rw [List.append_assoc, List.append_assoc, List.cons_append]
    exact readItems_comma hitem (skipGap_cons rfl _) (hothers.readItems_eq fuel (by omega) rest)

/-- The members of an object are read up to its closing brace. -/
theorem WrittenMembers.readMembers_eq {members : List (String × Json)} {inside : List Char}
    (h : WrittenMembers members inside) (fuel : Nat) (hfuel : 2 * inside.length + 1 ≤ fuel)
    (rest : List Char) :
    readMembers fuel (inside ++ '}' :: rest) = some (rawMembers members, rest) := by
  obtain ⟨fuel, rfl⟩ : ∃ n, fuel = n + 1 := Nat.exists_eq_succ_of_ne_zero (by omega)
  cases h with
  | @last name value before between word behind hbefore hbetween hword hbehind =>
    simp only [List.length_append, List.length_cons] at hfuel
    have hvalue := hword.readValue_eq fuel (by omega) (.gaps hbehind (.cons (c := '}') (by decide) rest))
    rw [← readValue_gaps hbetween] at hvalue
    simp only [List.append_assoc, List.cons_append]
    rw [readMembers_gaps hbefore]
    apply readMembers_close hvalue
    rw [skipGap_append hbehind, skipGap_cons rfl]
  | @cons name value others before between word tail hbefore hbetween hword hothers =>
    simp only [List.length_append, List.length_cons] at hfuel
    have hvalue := hword.readValue_eq fuel (by omega) (.cons (c := ',') (by decide) (tail ++ '}' :: rest))
    rw [← readValue_gaps hbetween] at hvalue
    simp only [List.append_assoc, List.cons_append]
    rw [readMembers_gaps hbefore]
    exact readMembers_comma hvalue (skipGap_cons rfl _) (hothers.readMembers_eq fuel (by omega) rest)

end

/-! ## The texts of a value -/

theorem gaps_nil : Gaps [] := nofun

mutual

/-- The text without blanks. -/
theorem written_chars {j : Json} (h : j.Whole) : Written j j.chars := by
  cases j with
  | null => exact .null
  | bool b => exact .bool b
  | integer n => exact .integer n
  | real n => exact absurd h id
  | string s => exact .string s
  | array items =>
    cases items with
    | nil => exact .emptyArray
    | cons item rest => exact .array (writtenItems_itemsChars h (List.cons_ne_nil _ _))
  | object members =>
    cases members with
    | nil => exact .emptyObject
    | cons member rest => exact .object (writtenMembers_membersChars h (List.cons_ne_nil _ _))

theorem writtenItems_itemsChars {items : List Json} (h : WholeItems items) (hne : items ≠ []) :
    WrittenItems items (itemsChars items) := by
  match items with
  | [] => exact absurd rfl hne
  | [item] =>
    have hlast := WrittenItems.last gaps_nil (written_chars h.1) gaps_nil
    rwa [List.append_nil] at hlast
  | item :: next :: rest =>
    exact .cons gaps_nil (written_chars h.1) (writtenItems_itemsChars h.2 (List.cons_ne_nil _ _))

theorem writtenMembers_membersChars {members : List (String × Json)} (h : WholeMembers members)
    (hne : members ≠ []) : WrittenMembers members (membersChars members) := by
  match members with
  | [] => exact absurd rfl hne
  | [(name, value)] =>
    have hlast := WrittenMembers.last name gaps_nil gaps_nil (written_chars h.1) gaps_nil
    rwa [List.append_nil] at hlast
  | (name, value) :: next :: rest =>
    exact .cons name gaps_nil gaps_nil (written_chars h.1)
      (writtenMembers_membersChars h.2 (List.cons_ne_nil _ _))

end

/-- The text of a value has the structure of the value, and nothing comes behind it. -/
theorem read_text {j : Json} (h : j.Integral) : Raw.read j.text.toList = some (j.raw, []) := by
  have hstop : Stops [] := nofun
  have hread := (written_chars h.whole).readValue_eq (2 * j.chars.length + 2) (by omega) hstop
  rw [List.append_nil] at hread
  rw [text, String.toList_ofList, Raw.read, hread]

theorem gaps_indent (level : Nat) : Gaps (indent level) := by
  intro c hc
  rcases List.mem_cons.mp hc with rfl | hc
  · rfl
  · rw [List.eq_of_mem_replicate hc]
    rfl

mutual

/-- The text over several lines. -/
theorem written_prettyChars {j : Json} (h : j.Whole) (level : Nat) :
    Written j (j.prettyChars level) := by
  cases j with
  | null => exact .null
  | bool b => exact .bool b
  | integer n => exact .integer n
  | real n => exact absurd h id
  | string s => exact .string s
  | array items =>
    cases items with
    | nil => exact .emptyArray
    | cons item rest =>
      exact .array (writtenItems_prettyItems h (List.cons_ne_nil _ _) (level + 1) (gaps_indent level))
  | object members =>
    cases members with
    | nil => exact .emptyObject
    | cons member rest =>
      exact .object
        (writtenMembers_prettyMembers h (List.cons_ne_nil _ _) (level + 1) (gaps_indent level))

theorem writtenItems_prettyItems {items : List Json} (h : WholeItems items) (hne : items ≠ [])
    (level : Nat) {behind : List Char} (hbehind : Gaps behind) :
    WrittenItems items (prettyItems level items ++ behind) := by
  match items with
  | [] => exact absurd rfl hne
  | [item] => exact .last (gaps_indent level) (written_prettyChars h.1 level) hbehind
  | item :: next :: rest =>
    have hrest := writtenItems_prettyItems h.2 (List.cons_ne_nil _ _) level hbehind
    have hcons := WrittenItems.cons (gaps_indent level) (written_prettyChars h.1 level) hrest
    rwa [← List.cons_append, ← List.append_assoc] at hcons

theorem writtenMembers_prettyMembers {members : List (String × Json)} (h : WholeMembers members)
    (hne : members ≠ []) (level : Nat) {behind : List Char} (hbehind : Gaps behind) :
    WrittenMembers members (prettyMembers level members ++ behind) := by
  have hspace : Gaps [' '] := by simp [Gaps, isGap]
  match members with
  | [] => exact absurd rfl hne
  | [(name, value)] =>
    exact .last name (gaps_indent level) hspace (written_prettyChars h.1 level) hbehind
  | (name, value) :: next :: rest =>
    have hrest := writtenMembers_prettyMembers h.2 (List.cons_ne_nil _ _) level hbehind
    have hcons := WrittenMembers.cons name (gaps_indent level) hspace
      (written_prettyChars h.1 level) hrest
    simp only [prettyMembers, List.append_assoc, List.cons_append, List.nil_append] at hcons ⊢
    exact hcons

end

/-- **A printed value.** Read again, a line end behind it included, it has the structure of the value. -/
theorem readAll_pretty {j : Json} (h : j.Whole) : Raw.readAll (j.pretty ++ "\n") = some j.raw := by
  have hstop : Stops ['\n'] := .cons (by decide) []
  have hread := (written_prettyChars h 0).readValue_eq (2 * (j.prettyChars 0 ++ ['\n']).length + 2)
    (by rw [List.length_append]; omega) hstop
  refine readAll_eq_some_iff.mpr ⟨['\n'], by simp [Gaps, isGap], ?_⟩
  rw [pretty, String.toList_append, String.toList_ofList]
  exact hread

end LosslessTree.Json
