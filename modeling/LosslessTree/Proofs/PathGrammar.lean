import LosslessTree.Path.Parser

/-!
# `Proofs.PathGrammar` — the texts that are paths

The grammar of dotted paths, without a scan. A text is cut into segments by single dots, and every segment
spells one key. A segment is a bare word, which is an index if it is a number and a name if not, or a
word in single or in double quotes, which is a name.

The scan reads this grammar and nothing else. What it has read of a segment is said once for each of its
states, in `Path.Scan.Reads`; from there, a text that it takes is cut into segments
(`Path.exists_divided_of_scan`), and a text that is cut into segments is taken
(`Path.Divided.scan_eq`). Both give that a text is cut in one way only: if one segment went on
behind the dot that ends another, the scan would see one key and several.

## Contents
- **Segments.** `Key.Numeral`, `Key.Bare`, `Key.Escaped`, `Key.SpelledBy`.
- **`Path.Divided`**, a text cut into segments.
- **The scan over a segment.** `Path.Scan.key?`, `Key.SpelledBy.exists_scan`, `Path.Scan.Reads`.
- **`Path.parse_eq_ok_iff_divided`**.
-/

namespace LosslessTree

/-! ## Segments -/

namespace Key

/-- The word is made of decimal digits and spells a number below `2^64`. -/
def Digits (word : List Char) (i : Nat) : Prop :=
  word ≠ [] ∧ (∀ c ∈ word, c.isDigit = true) ∧ Nat.ofDigitChars 10 word 0 = i ∧
    i < 18446744073709551616

/-- The word spells a number below `2^64`, with or without a plus sign. -/
def Numeral (word : List Char) (i : Nat) : Prop :=
  Digits word i ∨ ∃ digits, word = '+' :: digits ∧ Digits digits i

/-- Characters that a bare word may have. -/
def IsPlain (c : Char) : Prop := c ≠ '.' ∧ c ≠ '"' ∧ c ≠ '\'' ∧ Text.isBlank c = false

/-- The word can stand without quotes. -/
def Bare (word : List Char) : Prop := word ≠ [] ∧ ∀ c ∈ word, IsPlain c

/-- What a character behind a backslash stands for. -/
inductive StandsFor : Char → Char → Prop
  | lineFeed : StandsFor 'n' '\n'
  | tab : StandsFor 't' '\t'
  | carriageReturn : StandsFor 'r' '\r'
  | itself {c : Char} : c ≠ 'n' → c ≠ 't' → c ≠ 'r' → StandsFor c c

/-- What stands between double quotes, and the text that it means. -/
inductive Escaped : List Char → List Char → Prop
  | nil : Escaped [] []
  | plain {c : Char} {body text : List Char} :
      c ≠ '"' → c ≠ '\\' → Escaped body text → Escaped (c :: body) (c :: text)
  | pair {c d : Char} {body text : List Char} :
      StandsFor c d → Escaped body text → Escaped ('\\' :: c :: body) (d :: text)

/-- The segments that spell a key. -/
inductive SpelledBy : Key → List Char → Prop
  | index {word : List Char} {i : Nat} : Bare word → Numeral word i → SpelledBy (.index i) word
  | name {word : List Char} :
      Bare word → (∀ i, ¬ Numeral word i) → SpelledBy (.name (String.ofList word)) word
  | single {body : List Char} :
      '\'' ∉ body → SpelledBy (.name (String.ofList body)) ('\'' :: (body ++ ['\'']))
  | double {body text : List Char} :
      Escaped body text → SpelledBy (.name (String.ofList text)) ('"' :: (body ++ ['"']))

theorem digitsIndex?_eq_some_iff {word : List Char} {i : Nat} :
    digitsIndex? word = some i ↔ Digits word i := by
  have hbound : indexBound = 18446744073709551616 := rfl
  unfold digitsIndex? Digits
  rw [hbound]
  -- first what the word is made of, then the size of its number
  by_cases hword : word ≠ [] ∧ ∀ c ∈ word, c.isDigit = true
  · have hbare : (word.isEmpty || !word.all Char.isDigit) = false := by simpa using hword
    by_cases hlt : Nat.ofDigitChars 10 word 0 < 18446744073709551616
    · simp only [hbare, Bool.false_eq_true, if_false, hlt, if_true, Option.some.injEq]
      constructor
      · rintro rfl
        exact ⟨hword.1, hword.2, rfl, hlt⟩
      · exact fun h => h.2.2.1
    · simp only [hbare, Bool.false_eq_true, if_false, hlt, reduceCtorEq, false_iff]
      rintro ⟨-, -, rfl, h⟩
      exact hlt h
  · have hbare : (word.isEmpty || !word.all Char.isDigit) = true := by
      simp only [Bool.or_eq_true, List.isEmpty_iff, Bool.not_eq_true', List.all_eq_false]
      grind
    simp only [hbare, if_true, reduceCtorEq, false_iff]
    exact fun h => hword ⟨h.1, h.2.1⟩

theorem wordIndex?_eq_some_iff {word : List Char} {i : Nat} :
    wordIndex? word = some i ↔ Numeral word i := by
  unfold wordIndex? Numeral
  split
  · rename_i digits
    rw [digitsIndex?_eq_some_iff]
    constructor
    · exact fun h => Or.inr ⟨digits, rfl, h⟩
    · -- a plus sign is not a digit
      rintro (h | ⟨digits', heq, h⟩)
      · exact absurd (h.2.1 '+' List.mem_cons_self) (by decide)
      · injection heq with _ heq
        exact heq ▸ h
  · rename_i hplain
    rw [digitsIndex?_eq_some_iff]
    constructor
    · exact Or.inl
    · rintro (h | ⟨digits, heq, -⟩)
      · exact h
      · exact absurd heq (hplain digits)

/-- A bare word spells the key that it is taken for. -/
theorem spelledBy_ofWord {word : List Char} (h : Bare word) : (ofWord word).SpelledBy word := by
  unfold ofWord
  cases hindex : wordIndex? word with
  | some i => exact .index h (wordIndex?_eq_some_iff.mp hindex)
  | none =>
    refine .name h fun i hi => ?_
    rw [wordIndex?_eq_some_iff.mpr hi] at hindex
    cases hindex

/-- A bare number is taken for an index. -/
theorem ofWord_of_numeral {word : List Char} {i : Nat} (h : Numeral word i) :
    ofWord word = .index i := by
  rw [ofWord, wordIndex?_eq_some_iff.mpr h]

/-- Any other bare word is taken for a name. -/
theorem ofWord_of_not_numeral {word : List Char} (h : ∀ i, ¬ Numeral word i) :
    ofWord word = .name (String.ofList word) := by
  have hnone : wordIndex? word = none :=
    Option.eq_none_iff_forall_ne_some.mpr fun i hi => h i (wordIndex?_eq_some_iff.mp hi)
  rw [ofWord, hnone]

theorem standsFor_iff {c d : Char} : StandsFor c d ↔ d = unescape c := by
  constructor
  · intro h
    cases h with
    | lineFeed => rfl
    | tab => rfl
    | carriageReturn => rfl
    | itself hn ht hr =>
      unfold unescape
      split
      · exact absurd rfl hn
      · exact absurd rfl ht
      · exact absurd rfl hr
      · rfl
  · rintro rfl
    unfold unescape
    split
    · exact .lineFeed
    · exact .tab
    · exact .carriageReturn
    · rename_i hn ht hr
      exact .itself hn ht hr

/-- What stands between double quotes can go on. -/
theorem Escaped.append {body text body' text' : List Char} (h : Escaped body text)
    (h' : Escaped body' text') : Escaped (body ++ body') (text ++ text') := by
  induction h with
  | nil => exact h'
  | plain hquote hback _ ih => exact .plain hquote hback ih
  | pair hchar _ ih => exact .pair hchar ih

end Key

/-! ## Texts cut into segments -/

/-- The text is the segments with a dot between every two, and they spell the keys of the path. -/
inductive Path.Divided : Path → List (List Char) → List Char → Prop
  | last {key : Key} {segment : List Char} :
      key.SpelledBy segment → Path.Divided [key] [segment] segment
  | cons {key : Key} {segment rest : List Char} {p : Path} {segments : List (List Char)} :
      key.SpelledBy segment → Path.Divided p segments rest →
        Path.Divided (key :: p) (segment :: segments) (segment ++ '.' :: rest)

namespace Path

/-! ## The scan over a segment -/

/-- The key of the segment read so far, if it may end here. -/
def Scan.key? : Scan → Option Key
  | .bare word => if word.isEmpty then none else some (Key.ofWord word)
  | .closed word => some (.name (String.ofList word))
  | .single _ | .double _ => none

theorem Scan.key?_bare {word : List Char} (h : word ≠ []) :
    (Scan.bare word).key? = some (Key.ofWord word) := by
  simp [Scan.key?, h]

theorem Scan.key?_cases {state : Scan} {key : Key} (h : state.key? = some key) :
    (∃ word, state = .bare word ∧ word ≠ [] ∧ key = Key.ofWord word) ∨
      ∃ word, state = .closed word ∧ key = .name (String.ofList word) := by
  cases state with
  | bare word =>
    simp only [Scan.key?, List.isEmpty_iff] at h
    split at h
    · cases h
    · rename_i hword
      cases h
      exact Or.inl ⟨word, rfl, hword, rfl⟩
  | closed word =>
    cases h
    exact Or.inr ⟨word, rfl, rfl⟩
  | single word => cases h
  | double word => cases h

theorem scan_nil {state : Scan} {key : Key} (h : state.key? = some key) :
    scan state [] = .ok [key] := by
  obtain ⟨word, rfl, hword, rfl⟩ | ⟨word, rfl, rfl⟩ := Scan.key?_cases h
  · simp [scan, hword]
  · simp [scan]

theorem scan_dot {state : Scan} {key : Key} (h : state.key? = some key) (rest : List Char) :
    scan state ('.' :: rest) = (scan (.bare []) rest).map (key :: ·) := by
  obtain ⟨word, rfl, hword, rfl⟩ | ⟨word, rfl, rfl⟩ := Scan.key?_cases h
  · simp [scan, hword]
  · simp [scan]

/-- The scan takes plain characters into a bare word. -/
theorem scan_bare_append {cs : List Char} (word rest : List Char) (h : ∀ c ∈ cs, Key.IsPlain c) :
    scan (.bare word) (cs ++ rest) = scan (.bare (word ++ cs)) rest := by
  induction cs generalizing word with
  | nil => simp
  | cons c cs ih =>
    obtain ⟨hdot, hdouble, hsingle, hblank⟩ := h c List.mem_cons_self
    rw [List.cons_append, scan, if_neg hdot, if_neg hdouble, if_neg hsingle,
      if_neg (by simp [hblank]), ih _ fun d hd => h d (List.mem_cons_of_mem c hd)]
    simp

/-- The scan takes everything up to the next single quote into a word in single quotes. -/
theorem scan_single_append {cs : List Char} (word rest : List Char) (h : '\'' ∉ cs) :
    scan (.single word) (cs ++ rest) = scan (.single (word ++ cs)) rest := by
  induction cs generalizing word with
  | nil => simp
  | cons c cs ih =>
    have hc : c ≠ '\'' := fun heq => h (heq ▸ List.mem_cons_self)
    rw [List.cons_append, scan, if_neg hc, ih _ fun hd => h (List.mem_cons_of_mem c hd)]
    simp

/-- Between double quotes the scan takes what is meant into the word. -/
theorem scan_double_append {body text : List Char} (h : Key.Escaped body text)
    (word rest : List Char) :
    scan (.double word) (body ++ rest) = scan (.double (word ++ text)) rest := by
  induction h generalizing word with
  | nil => simp
  | plain hquote hback _ ih =>
    rw [List.cons_append, scan, if_neg hquote, ih]
    · simp
    · exact fun h _ => hback h
    · exact fun _ _ h _ => hback h
  | pair hchar _ ih =>
    rw [Key.standsFor_iff.mp hchar, List.cons_append, List.cons_append, scan, ih]
    simp

end Path

/-- **The scan over a segment.** Behind a segment that spells a key, it stands where that key may end. -/
theorem Key.SpelledBy.exists_scan {key : Key} {segment : List Char} (h : key.SpelledBy segment) :
    ∃ state : Path.Scan, state.key? = some key ∧
      ∀ rest, Path.scan (.bare []) (segment ++ rest) = Path.scan state rest := by
  cases h with
  | @index _ i hbare hnumeral =>
    refine ⟨.bare segment, ?_, fun rest => Path.scan_bare_append [] rest hbare.2⟩
    rw [Path.Scan.key?_bare hbare.1, Key.ofWord_of_numeral hnumeral]
  | name hbare hnumeral =>
    refine ⟨.bare segment, ?_, fun rest => Path.scan_bare_append [] rest hbare.2⟩
    rw [Path.Scan.key?_bare hbare.1, Key.ofWord_of_not_numeral hnumeral]
  | @single body hbody =>
    refine ⟨.closed body, rfl, ?_⟩
    intro rest
    have hinside := Path.scan_single_append [] ('\'' :: rest) hbody
    rw [List.nil_append] at hinside
    simpa [Path.scan] using hinside
  | @double body text hbody =>
    refine ⟨.closed text, rfl, ?_⟩
    intro rest
    have hinside := Path.scan_double_append hbody [] ('"' :: rest)
    rw [List.nil_append] at hinside
    simpa [Path.scan] using hinside

namespace Path

/-- A text that is cut into segments is scanned without a fault, key by key. -/
theorem Divided.scan_eq {p : Path} {segments : List (List Char)} {text : List Char}
    (h : p.Divided segments text) : scan (.bare []) text = .ok p := by
  induction h with
  | @last key segment hkey =>
    obtain ⟨state, hend, hscan⟩ := hkey.exists_scan
    rw [← List.append_nil segment, hscan, scan_nil hend]
  | cons hkey _ ih =>
    obtain ⟨state, hend, hscan⟩ := hkey.exists_scan
    rw [hscan, scan_dot hend, ih]
    rfl

/-! ## What the scan takes -/

/-- What has been read of a segment when the scan stands inside or behind it. -/
def Scan.Reads : Scan → List Char → Prop
  | .bare word, read => read = word ∧ ∀ c ∈ word, Key.IsPlain c
  | .single word, read => read = '\'' :: word ∧ '\'' ∉ word
  | .double word, read => ∃ body, read = '"' :: body ∧ Key.Escaped body word
  | .closed word, read => (Key.name (String.ofList word)).SpelledBy read

namespace Scan.Reads

variable {word read : List Char}

theorem start : (Scan.bare []).Reads [] := ⟨rfl, fun _ hc => absurd hc List.not_mem_nil⟩

/-- A plain character goes on with a bare word. -/
theorem plain {c : Char} (h : (Scan.bare word).Reads read) (hc : Key.IsPlain c) :
    (Scan.bare (word ++ [c])).Reads (read ++ [c]) := by
  obtain ⟨rfl, hplain⟩ := h
  refine ⟨rfl, ?_⟩
  intro d hd
  rcases List.mem_append.mp hd with hd | hd
  · exact hplain d hd
  · exact List.mem_singleton.mp hd ▸ hc

theorem openSingle (h : (Scan.bare []).Reads read) : (Scan.single []).Reads (read ++ ['\'']) := by
  obtain ⟨rfl, -⟩ := h
  exact ⟨rfl, List.not_mem_nil⟩

theorem openDouble (h : (Scan.bare []).Reads read) : (Scan.double []).Reads (read ++ ['"']) := by
  obtain ⟨rfl, -⟩ := h
  exact ⟨[], rfl, .nil⟩

theorem single {c : Char} (h : (Scan.single word).Reads read) (hc : c ≠ '\'') :
    (Scan.single (word ++ [c])).Reads (read ++ [c]) := by
  obtain ⟨rfl, hword⟩ := h
  refine ⟨rfl, ?_⟩
  intro hm
  rcases List.mem_append.mp hm with hm | hm
  · exact hword hm
  · exact hc (List.mem_singleton.mp hm).symm

theorem closeSingle (h : (Scan.single word).Reads read) :
    (Scan.closed word).Reads (read ++ ['\'']) := by
  obtain ⟨rfl, hword⟩ := h
  exact Key.SpelledBy.single hword

theorem double {c : Char} (h : (Scan.double word).Reads read) (hquote : c ≠ '"') (hback : c ≠ '\\') :
    (Scan.double (word ++ [c])).Reads (read ++ [c]) := by
  obtain ⟨body, rfl, hbody⟩ := h
  exact ⟨body ++ [c], rfl, hbody.append (.plain hquote hback .nil)⟩

theorem pair (c : Char) (h : (Scan.double word).Reads read) :
    (Scan.double (word ++ [Key.unescape c])).Reads (read ++ ['\\', c]) := by
  obtain ⟨body, rfl, hbody⟩ := h
  exact ⟨body ++ ['\\', c], rfl, hbody.append (.pair (Key.standsFor_iff.mpr rfl) .nil)⟩

theorem closeDouble (h : (Scan.double word).Reads read) :
    (Scan.closed word).Reads (read ++ ['"']) := by
  obtain ⟨body, rfl, hbody⟩ := h
  exact Key.SpelledBy.double hbody

/-- Where a segment may end, it spells the key that is taken. -/
theorem spelledBy {state : Scan} {key : Key} (h : state.Reads read) (hend : state.key? = some key) :
    key.SpelledBy read := by
  obtain ⟨word, rfl, hword, rfl⟩ | ⟨word, rfl, rfl⟩ := Scan.key?_cases hend
  · obtain ⟨rfl, hplain⟩ := h
    exact Key.spelledBy_ofWord ⟨hword, hplain⟩
  · exact h

end Scan.Reads

/-- A segment that ends at a dot is followed by the segments behind it. -/
theorem exists_divided_of_dot {key : Key} {read rest : List Char} {p : Path}
    (hkey : key.SpelledBy read) (h : (scan (.bare []) rest).map (key :: ·) = .ok p)
    (hrest : ∀ q, scan (.bare []) rest = .ok q → ∃ segments, q.Divided segments rest) :
    ∃ segments, p.Divided segments (read ++ '.' :: rest) := by
  cases hscan : scan (.bare []) rest with
  | error fault =>
    rw [hscan] at h
    cases h
  | ok q =>
    rw [hscan] at h
    cases h
    obtain ⟨segments, hdivided⟩ := hrest q hscan
    exact ⟨read :: segments, .cons hkey hdivided⟩

/-- **What the scan takes.** A scan without a fault goes over a text that is cut into segments, the first of
    which begins with what has been read. -/
theorem exists_divided_of_scan {state : Scan} {rest : List Char} {p : Path}
    (h : scan state rest = .ok p) {read : List Char} (hread : state.Reads read) :
    ∃ segments, p.Divided segments (read ++ rest) := by
  -- along the scan; what has been read of the segment grows until the segment ends
  fun_induction scan state rest generalizing p read with
  | case2 word hword =>
    cases h
    rw [List.append_nil]
    exact ⟨[read], .last (hread.spelledBy (Scan.key?_bare (by simpa using hword)))⟩
  | case4 word rest hword ih =>
    have hkey := hread.spelledBy (Scan.key?_bare (by simpa using hword))
    exact exists_divided_of_dot hkey h fun q hq => ih hq .start
  | case5 word rest hword _ ih =>
    obtain rfl : word = [] := by simpa using hword
    simpa using ih h hread.openDouble
  | case7 word rest hword _ _ ih =>
    obtain rfl : word = [] := by simpa using hword
    simpa using ih h hread.openSingle
  | case10 word c rest hdot hdouble hsingle hblank ih =>
    simpa using ih h (hread.plain ⟨hdot, hdouble, hsingle, by simpa using hblank⟩)
  | case12 word rest ih => simpa using ih h hread.closeSingle
  | case13 word c rest hquote ih => simpa using ih h (hread.single hquote)
  | case16 word c rest ih => simpa using ih h (hread.pair c)
  | case17 word rest _ _ ih => simpa using ih h hread.closeDouble
  | case18 word c rest hlast hpair hquote ih =>
    -- a backslash begins a pair, or the text ends behind it
    have hback : c ≠ '\\' := by
      rintro rfl
      cases rest with
      | nil => exact hlast rfl rfl
      | cons d rest => exact hpair d rest rfl rfl
    simpa using ih h (hread.double hquote hback)
  | case19 word =>
    cases h
    rw [List.append_nil]
    exact ⟨[read], .last (hread.spelledBy rfl)⟩
  | case20 word rest ih =>
    exact exists_divided_of_dot (hread.spelledBy rfl) h fun q hq => ih hq .start
  | _ => cases h

/-! ## One way to cut a text -/

/-- A segment does not go on behind a dot that ends another. -/
theorem not_spelledBy_append_dot {key other : Key} {segment : List Char} (h : key.SpelledBy segment)
    (rest : List Char) : ¬ other.SpelledBy (segment ++ '.' :: rest) := by
  intro hother
  -- scanned to the end, the longer segment is one key, and the shorter one is followed by more
  have hone := (Divided.last hother).scan_eq
  obtain ⟨state, hend, hscan⟩ := h.exists_scan
  rw [hscan, scan_dot hend] at hone
  cases hrest : scan (.bare []) rest with
  | error fault =>
    rw [hrest] at hone
    cases hone
  | ok q =>
    rw [hrest] at hone
    cases hone
    obtain ⟨segments, hdivided⟩ := exists_divided_of_scan hrest .start
    cases hdivided

theorem eq_of_append_dot {key other : Key} {segment segment' rest rest' : List Char}
    (h : key.SpelledBy segment) (h' : other.SpelledBy segment')
    (heq : segment ++ '.' :: rest = segment' ++ '.' :: rest') :
    segment = segment' ∧ rest = rest' := by
  rcases List.append_eq_append_iff.mp heq with ⟨more, rfl, hmore⟩ | ⟨more, rfl, hmore⟩
  · cases more with
    | nil => exact ⟨(List.append_nil segment).symm, (List.cons.inj hmore).2⟩
    | cons c more =>
      obtain ⟨rfl, -⟩ := List.cons.inj hmore
      exact absurd h' (not_spelledBy_append_dot h more)
  · cases more with
    | nil => exact ⟨List.append_nil segment', (List.cons.inj hmore).2.symm⟩
    | cons c more =>
      obtain ⟨rfl, -⟩ := List.cons.inj hmore
      exact absurd h (not_spelledBy_append_dot h' more)

theorem Divided.segments_unique {p q : Path} {segments segments' : List (List Char)}
    {text : List Char} (h : p.Divided segments text) (h' : q.Divided segments' text) :
    segments = segments' := by
  -- the two first segments end at the same dot, or no dot ends either
  induction h generalizing q segments' with
  | last hkey =>
    cases h' with
    | last _ => rfl
    | cons hother _ => exact absurd hkey (not_spelledBy_append_dot hother _)
  | @cons key segment rest p segments hkey _ ih =>
    generalize htext : segment ++ '.' :: rest = text at h'
    cases h' with
    | last hother => exact absurd (htext ▸ hother) (not_spelledBy_append_dot hkey rest)
    | cons hother hrest =>
      obtain ⟨rfl, rfl⟩ := eq_of_append_dot hkey hother htext
      rw [ih hrest]

/-! ## Parsing -/

/-- A text that is not empty is scanned, and refused with the fault of the scan. -/
theorem parse_of_ne_empty {input : String} (h : input ≠ "") :
    parse input = (scan (.bare []) input.toList).mapError (PathError.mk input) := by
  simp only [parse, String.isEmpty_iff, h, if_false]
  cases scan (.bare []) input.toList <;> rfl

theorem Divided.ne_empty {p : Path} {segments : List (List Char)} {input : String}
    (h : p.Divided segments input.toList) : input ≠ "" := by
  rintro rfl
  cases h.scan_eq

/-- A text that is cut into segments is parsed, key by key. -/
theorem Divided.parse_eq {p : Path} {segments : List (List Char)} {input : String}
    (h : p.Divided segments input.toList) : parse input = .ok p := by
  rw [parse_of_ne_empty h.ne_empty, h.scan_eq]
  rfl

/-- A text that is not empty is cut into segments and parsed, or not cut and refused. -/
theorem divided_or_refused {input : String} (h : input ≠ "") :
    (∃ p segments, Divided p segments input.toList ∧ parse input = .ok p) ∨
      ∃ fault, parse input = .error ⟨input, fault⟩ := by
  rw [parse_of_ne_empty h]
  cases hscan : scan (.bare []) input.toList with
  | error fault => exact Or.inr ⟨fault, rfl⟩
  | ok p =>
    obtain ⟨segments, hdivided⟩ := exists_divided_of_scan hscan .start
    exact Or.inl ⟨p, segments, hdivided, rfl⟩

/-- **Parsing reads the grammar of paths.** A text is parsed to a path exactly if both are empty, or the text
    is cut by single dots into segments that spell the keys of the path. Every other text is refused, and
    the error carries it. No text can be cut in two ways, or be read as two paths. -/
theorem parse_eq_ok_iff_divided (input : String) :
    (∀ p, parse input = .ok p ↔
      (input = "" ∧ p = []) ∨ ∃ segments, p.Divided segments input.toList) ∧
    ((∃ fault, parse input = .error ⟨input, fault⟩) ↔
      ¬ (input = "" ∨ ∃ p segments, Divided p segments input.toList)) ∧
    ∀ p q segments segments', Divided p segments input.toList → Divided q segments' input.toList →
      segments = segments' ∧ p = q := by
  refine ⟨?_, ?_, ?_⟩
  · intro p
    constructor
    · intro h
      by_cases hempty : input = ""
      · subst hempty
        cases h
        exact Or.inl ⟨rfl, rfl⟩
      · rcases divided_or_refused hempty with ⟨q, segments, hdivided, hparse⟩ | ⟨fault, hparse⟩
        · cases hparse.symm.trans h
          exact Or.inr ⟨segments, hdivided⟩
        · cases hparse.symm.trans h
    · rintro (⟨rfl, rfl⟩ | ⟨segments, hdivided⟩)
      · rfl
      · exact hdivided.parse_eq
  · constructor
    · rintro ⟨fault, h⟩ (rfl | ⟨p, segments, hdivided⟩)
      · cases h
      · cases hdivided.parse_eq.symm.trans h
    · intro h
      rcases divided_or_refused fun hempty => h (Or.inl hempty) with
        ⟨p, segments, hdivided, -⟩ | hrefused
      · exact absurd (Or.inr ⟨p, segments, hdivided⟩) h
      · exact hrefused
  · intro p q segments segments' h h'
    exact ⟨h.segments_unique h', Except.ok.inj (h.scan_eq.symm.trans h'.scan_eq)⟩

/-- A bare name, a name in quotes and a number with a plus sign. -/
example : parse "body.'a.b'.+7" = .ok [.name "body", .name "a.b", .index 7] := by rfl

end Path

end LosslessTree
