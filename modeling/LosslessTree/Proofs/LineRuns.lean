import LosslessTree.Proofs.Layout

/-!
# `Proofs.LineRuns` — the one way to cut a text at its line ends

`Text.runs` cuts a text into stretches without a line end and single line ends, by turns. Written down as
texts, the runs have five properties: put together they are the text; their number is odd; those at even
places have neither CR nor LF; those at odd places are LF, CR or CR LF; and a CR is never followed by an
empty stretch and an LF, which together would be one line end. No other list of texts has all of them.

A `Text.Splitter` that is asked for run after run gives these texts, never reaches past the end of the
text, and ends.

`Text.Alternates` states the last four properties by places. What it says of a list depends on its first
two entries and on the list behind them (`Text.alternates_cons_cons_iff`), and this is how both directions
go: the cut of a text alternates, by the recursion of the cut; and pieces that alternate are the cut of
what they make up, two pieces at a time.

## Contents
- **Line ends.** `Text.IsPlain`, `Text.IsMark`, `Text.isNewline_iff`.
- **Places.** `Text.Alternates`, `Text.alternates_cons_cons_iff`.
- **The cut.** `Text.flatMap_chars_cut`, `Text.alternates_cut`, `Text.map_text_cut_of_alternates`.
- **Run by run.** `Text.Splitter.Yields`, `Text.Splitter.yields_cut`.
-/

namespace LosslessTree

namespace Text

/-! ## Line ends -/

/-- A text has neither CR nor LF. -/
def IsPlain (s : String) : Prop := '\r' ∉ s.toList ∧ '\n' ∉ s.toList

/-- A text is one line end. -/
def IsMark (s : String) : Prop := s = "\n" ∨ s = "\r" ∨ s = "\r\n"

theorem isNewline_iff (s : String) : isNewline s = true ↔ IsMark s := by
  constructor
  · intro h
    unfold isNewline Newline.ofChars? at h
    unfold IsMark
    rw [← String.toList_inj, ← String.toList_inj, ← String.toList_inj]
    split at h
    · next hs => exact Or.inl hs
    · next hs => exact Or.inr (Or.inl hs)
    · next hs => exact Or.inr (Or.inr hs)
    · cases h
  · rintro (rfl | rfl | rfl) <;> rfl

theorem IsPlain.not_isMark {s : String} (h : IsPlain s) : ¬ IsMark s := by
  rintro (rfl | rfl | rfl)
  · exact h.2 (by simp)
  · exact h.1 (by simp)
  · exact h.1 (by simp)

theorem IsMark.exists_mark {s : String} (h : IsMark s) :
    ∃ mark : Newline, (Run.newline mark).text = s := by
  rcases h with rfl | rfl | rfl
  · exact ⟨.lf, rfl⟩
  · exact ⟨.cr, rfl⟩
  · exact ⟨.crlf, rfl⟩

theorem isMark_text (mark : Newline) : IsMark (Run.newline mark).text := by
  cases mark
  · exact Or.inl rfl
  · exact Or.inr (Or.inl rfl)
  · exact Or.inr (Or.inr rfl)

/-! ## Places -/

/-- Texts without line ends and single line ends by turns, the former at both ends, in which no CR and LF
    stand together. -/
structure Alternates (pieces : List String) : Prop where
  odd : pieces.length % 2 = 1
  plain : ∀ i piece, pieces[i]? = some piece → i % 2 = 0 → IsPlain piece
  mark : ∀ i piece, pieces[i]? = some piece → i % 2 = 1 → IsMark piece
  apart : ∀ i, ¬ (pieces[i]? = some "\r" ∧ pieces[i + 1]? = some "" ∧ pieces[i + 2]? = some "\n")

theorem alternates_singleton_iff {s : String} : Alternates [s] ↔ IsPlain s := by
  constructor
  · intro h
    exact h.plain 0 s rfl rfl
  · intro hs
    refine ⟨rfl, ?_, ?_, ?_⟩
    · intro i piece hi _
      cases i with
      | zero =>
        cases hi
        exact hs
      | succ i => cases hi
    · intro i piece hi hodd
      cases i with
      | zero => cases hodd
      | succ i => cases hi
    · rintro i ⟨-, hnext, -⟩
      cases hnext

/-- **Two entries at a time.** -/
theorem alternates_cons_cons_iff {s e : String} {rest : List String} :
    Alternates (s :: e :: rest) ↔
      IsPlain s ∧ IsMark e ∧ (e = "\r" → ¬ ["", "\n"] <+: rest) ∧ Alternates rest := by
  constructor
  · intro h
    refine ⟨h.plain 0 s rfl rfl, h.mark 1 e rfl rfl, ?_, ?_, ?_, ?_, ?_⟩
    · rintro rfl ⟨more, rfl⟩
      exact h.apart 1 ⟨rfl, rfl, rfl⟩
    · have hodd := h.odd
      simp only [List.length_cons] at hodd
      omega
    · intro i piece hi heven
      exact h.plain (i + 2) piece hi (by omega)
    · intro i piece hi hodd
      exact h.mark (i + 2) piece hi (by omega)
    · intro i
      exact h.apart (i + 2)
  · rintro ⟨hs, he, hapart, h⟩
    refine ⟨?_, ?_, ?_, ?_⟩
    · have hodd := h.odd
      simp only [List.length_cons]
      omega
    · intro i piece hi heven
      match i with
      | 0 =>
        cases hi
        exact hs
      | 1 => cases heven
      | i + 2 => exact h.plain i piece hi (by omega)
    · intro i piece hi hodd
      match i with
      | 0 => cases hodd
      | 1 =>
        cases hi
        exact he
      | i + 2 => exact h.mark i piece hi (by omega)
    · intro i hi
      match i with
      | 0 =>
        -- a CR is not a stretch
        obtain ⟨hcr, -⟩ := hi
        cases hcr
        exact hs.1 (by simp)
      | 1 =>
        obtain ⟨hcr, hempty, hlf⟩ := hi
        cases hcr
        refine hapart rfl ?_
        match rest, hempty, hlf with
        | _ :: _ :: more, rfl, rfl => exact ⟨more, rfl⟩
      | i + 2 => exact h.apart i hi

theorem not_alternates_nil : ¬ Alternates [] := by
  intro h
  cases h.odd

/-- Only what the first entry is made of matters. -/
theorem Alternates.replace_first {s t : String} {rest : List String} (h : Alternates (s :: rest))
    (ht : IsPlain t) : Alternates (t :: rest) := by
  cases rest with
  | nil => exact alternates_singleton_iff.mpr ht
  | cons e rest =>
    rw [alternates_cons_cons_iff] at h ⊢
    exact ⟨ht, h.2⟩

/-! ## The cut -/

/-- A cut text begins with a stretch. -/
theorem exists_stretch_cut (cs : List Char) : ∃ chars rest, cut cs = .stretch chars :: rest := by
  fun_induction cut cs with
  | case1 => exact ⟨[], [], rfl⟩
  | case2 rest ih => exact ⟨[], _, rfl⟩
  | case3 rest _ ih => exact ⟨[], _, rfl⟩
  | case4 rest ih => exact ⟨[], _, rfl⟩
  | case5 c rest _ _ _ ih =>
    obtain ⟨chars, more, hcut⟩ := ih
    exact ⟨c :: chars, more, by rw [hcut]; rfl⟩

/-- Nothing is lost in a cut, and nothing added. -/
theorem flatMap_chars_cut (cs : List Char) : (cut cs).flatMap Run.chars = cs := by
  fun_induction cut cs with
  | case1 => rfl
  | case2 rest ih => simp [Run.chars, Newline.chars, ih]
  | case3 rest _ ih => simp [Run.chars, Newline.chars, ih]
  | case4 rest ih => simp [Run.chars, Newline.chars, ih]
  | case5 c rest _ _ _ ih =>
    obtain ⟨chars, more, hcut⟩ := exists_stretch_cut rest
    rw [hcut] at ih ⊢
    simpa [Run.consFirst, Run.chars] using ih

theorem join_map_text (runs : List Run) :
    (String.join (runs.map Run.text)).toList = runs.flatMap Run.chars := by
  rw [String.toList_join, List.flatMap_map]
  simp [Run.text]

theorem stretch_mem_lineEnd {chars : List Char} {mark : Newline} {rest : List Run}
    (h : .stretch chars ∈ Run.stretch [] :: .newline mark :: rest) :
    chars = [] ∨ .stretch chars ∈ rest := by
  simpa using h

/-- The stretches of a cut text have no line ends. -/
theorem isPlain_of_stretch_mem_cut {cs chars : List Char} (h : .stretch chars ∈ cut cs) :
    IsPlain (Run.stretch chars).text := by
  unfold IsPlain Run.text Run.chars
  rw [String.toList_ofList]
  fun_induction cut cs generalizing chars with
  | case1 => simp_all
  | case2 rest ih =>
    rcases stretch_mem_lineEnd h with rfl | h
    · simp
    · exact ih h
  | case3 rest _ ih =>
    rcases stretch_mem_lineEnd h with rfl | h
    · simp
    · exact ih h
  | case4 rest ih =>
    rcases stretch_mem_lineEnd h with rfl | h
    · simp
    · exact ih h
  | case5 c rest _ hcr hlf ih =>
    obtain ⟨first, more, hcut⟩ := exists_stretch_cut rest
    rw [hcut] at h ih
    rcases List.mem_cons.mp h with hfirst | hmore
    · injection hfirst with hfirst
      obtain ⟨hr, hn⟩ := ih List.mem_cons_self
      rw [hfirst, List.mem_cons, List.mem_cons]
      exact ⟨fun h => h.elim (hcr ·.symm) hr, fun h => h.elim (hlf ·.symm) hn⟩
    · exact ih (List.mem_cons_of_mem _ hmore)

/-- A run of a cut text is a line end exactly if its text is one. -/
theorem isNewline_text_of_mem_cut {cs : List Char} {run : Run} (h : run ∈ cut cs) :
    isNewline run.text = true ↔ ∃ mark, run = .newline mark := by
  rw [isNewline_iff]
  cases run with
  | newline mark => exact ⟨fun _ => ⟨mark, rfl⟩, fun _ => isMark_text mark⟩
  | stretch chars =>
    constructor
    · intro hend
      exact absurd hend (isPlain_of_stretch_mem_cut h).not_isMark
    · rintro ⟨mark, hmark⟩
      cases hmark

/-- **The cut of a text alternates.** -/
theorem alternates_cut (cs : List Char) : Alternates ((cut cs).map Run.text) := by
  have hempty : IsPlain (Run.stretch []).text := by
    unfold IsPlain
    simp [Run.text, Run.chars]
  fun_induction cut cs with
  | case1 => exact alternates_singleton_iff.mpr hempty
  | case2 rest ih =>
    rw [List.map_cons, List.map_cons, alternates_cons_cons_iff]
    refine ⟨hempty, isMark_text _, ?_, ih⟩
    intro hcr
    exact absurd hcr (by decide)
  | case3 rest hlf ih =>
    rw [List.map_cons, List.map_cons, alternates_cons_cons_iff]
    refine ⟨hempty, isMark_text _, ?_, ih⟩
    -- an LF behind the CR would be the first character of the rest
    rintro - ⟨more, hmore⟩
    have hchars := join_map_text (cut rest)
    rw [← hmore, flatMap_chars_cut] at hchars
    exact hlf (String.join more).toList (hchars.symm.trans (by simp))
  | case4 rest ih =>
    rw [List.map_cons, List.map_cons, alternates_cons_cons_iff]
    refine ⟨hempty, isMark_text _, ?_, ih⟩
    intro hcr
    exact absurd hcr (by decide)
  | case5 c rest hpair hcr hlf ih =>
    have hplain : ∀ chars, .stretch chars ∈ cut (c :: rest) → IsPlain (Run.stretch chars).text :=
      fun _ => isPlain_of_stretch_mem_cut
    obtain ⟨chars, more, hcut⟩ := exists_stretch_cut rest
    rw [cut, hcut] at hplain
    · rw [hcut] at ih ⊢
      exact ih.replace_first (hplain (c :: chars) List.mem_cons_self)
    · exact hpair
    · exact hcr
    · exact hlf

/-- A stretch in front of a line end, or of nothing, is cut as one run. -/
theorem cut_stretch_append {s cs : List Char} {rest : List Run} (hr : '\r' ∉ s) (hn : '\n' ∉ s)
    (h : cut cs = .stretch [] :: rest) : cut (s ++ cs) = .stretch s :: rest := by
  induction s with
  | nil => exact h
  | cons c s ih =>
    rw [List.mem_cons, not_or] at hr hn
    rw [List.cons_append, cut, ih hr.2 hn.2]
    · rfl
    · exact fun _ hc _ => hr.1 hc.symm
    · exact fun hc => hr.1 hc.symm
    · exact fun hc => hn.1 hc.symm

/-- A line end is cut off unless it is a CR that what follows makes longer. -/
theorem cut_newline_append {mark : Newline} {cs : List Char}
    (h : mark = .cr → ∀ rest, cs = '\n' :: rest → False) :
    cut (mark.chars ++ cs) = .stretch [] :: .newline mark :: cut cs := by
  cases mark with
  | lf => rfl
  | crlf => rfl
  | cr =>
    show cut ('\r' :: cs) = _
    rw [cut]
    exact h rfl

/-- Pieces that alternate begin with an LF only behind an empty stretch. -/
theorem Alternates.prefix_of_newline {pieces : List String} {cs : List Char} (h : Alternates pieces)
    (hcs : (String.join pieces).toList = '\n' :: cs) : ["", "\n"] <+: pieces := by
  match pieces with
  | [] => exact absurd h not_alternates_nil
  | [s] =>
    have hplain := alternates_singleton_iff.mp h
    simp only [String.join_cons, String.join_nil, String.append_empty] at hcs
    exact absurd (by rw [hcs]; exact List.mem_cons_self) hplain.2
  | s :: e :: rest =>
    obtain ⟨hplain, hend, -, -⟩ := alternates_cons_cons_iff.mp h
    simp only [String.join_cons, String.toList_append] at hcs
    cases hs : s.toList with
    | cons c tail =>
      rw [hs] at hcs
      injection hcs with hc
      exact absurd (by rw [hs, hc]; exact List.mem_cons_self) hplain.2
    | nil =>
      rw [hs] at hcs
      have hempty : s = "" := String.toList_injective hs
      rcases hend with rfl | rfl | rfl
      · exact ⟨rest, by rw [hempty]; rfl⟩
      · simp at hcs
      · simp at hcs

/-- **Pieces that alternate are the cut of what they make up.** -/
theorem map_text_cut_of_alternates (pieces : List String) (h : Alternates pieces) :
    (cut (String.join pieces).toList).map Run.text = pieces := by
  match pieces with
  | [] => exact absurd h not_alternates_nil
  | [s] =>
    obtain ⟨hr, hn⟩ := alternates_singleton_iff.mp h
    have hcut : cut (s.toList ++ []) = [.stretch s.toList] := cut_stretch_append hr hn rfl
    rw [List.append_nil] at hcut
    simp [String.join_cons, String.join_nil, hcut, Run.text, Run.chars]
  | s :: e :: rest =>
    obtain ⟨⟨hr, hn⟩, hend, hapart, hrest⟩ := alternates_cons_cons_iff.mp h
    obtain ⟨mark, rfl⟩ := hend.exists_mark
    have hmark : mark = .cr → ∀ cs, (String.join rest).toList = '\n' :: cs → False := by
      rintro rfl cs hcs
      exact hapart rfl (hrest.prefix_of_newline hcs)
    have hcut := cut_stretch_append hr hn (cut_newline_append hmark)
    have hjoin : (String.join (s :: (Run.newline mark).text :: rest)).toList =
        s.toList ++ (mark.chars ++ (String.join rest).toList) := by
      simp [String.join_cons, Run.text, Run.chars]
    rw [hjoin, hcut, List.map_cons, List.map_cons, map_text_cut_of_alternates rest hrest]
    simp [Run.text, Run.chars]

/-! ## Run by run -/

namespace Splitter

/-- Asked again and again, a splitter gives the texts `pieces` and then ends. -/
inductive Yields : Splitter → List String → Prop
  | ended {s : Splitter} : s.next = .ended → Yields s []
  | run {s later : Splitter} {text : String} {pieces : List String} :
      s.next = .run text later → Yields later pieces → Yields s (text :: pieces)

theorem Yields.unique {s : Splitter} {pieces others : List String} (h : s.Yields pieces)
    (ho : s.Yields others) : pieces = others := by
  induction h generalizing others with
  | ended hnext =>
    cases ho with
    | ended _ => rfl
    | run hother _ => cases hnext.symm.trans hother
  | run hnext _ ih =>
    cases ho with
    | ended hother => cases hnext.symm.trans hother
    | run hother hlater =>
      cases hnext.symm.trans hother
      rw [ih hlater]

/-- A line end in front is given as an empty stretch and the line end. -/
theorem yields_mark (mark : Newline) {rest : List Char} {pieces : List String}
    (hcr : mark = .cr → ∀ cs, rest = '\n' :: cs → False) (h : Yields ⟨rest, false, false⟩ pieces) :
    Yields ⟨mark.chars ++ rest, false, false⟩
      ((Run.stretch []).text :: (Run.newline mark).text :: pieces) := by
  have hstretch : next ⟨mark.chars ++ rest, false, false⟩ =
      .run (Run.stretch []).text ⟨mark.chars ++ rest, true, false⟩ := by
    cases mark <;> rfl
  have hmark : next ⟨mark.chars ++ rest, true, false⟩ =
      .run (Run.newline mark).text ⟨rest, false, false⟩ := by
    cases mark with
    | lf => simp [next, Newline.chars, Run.text, Run.chars]
    | crlf => simp [next, Newline.chars, Run.text, Run.chars]
    | cr =>
      have hsingle : ['\r', '\n'].isPrefixOf ('\r' :: rest) = false := by
        cases rest with
        | nil => rfl
        | cons c cs =>
          have hc : c ≠ '\n' := fun hc => hcr rfl cs (by rw [hc])
          simp [List.isPrefixOf, hc.symm]
      simp [next, Newline.chars, Run.text, Run.chars, hsingle]
  exact .run hstretch (.run hmark h)

/-- A character in front that belongs to no line end makes the first run longer. -/
theorem yields_cons {c : Char} {rest : List Char} {text : String} {pieces : List String}
    (hr : c ≠ '\r') (hn : c ≠ '\n') (h : Yields ⟨rest, false, false⟩ (text :: pieces)) :
    Yields ⟨c :: rest, false, false⟩ (String.ofList (c :: text.toList) :: pieces) := by
  have hskip : (c :: rest).findIdx? ['\n', '\r'].contains =
      (rest.findIdx? ['\n', '\r'].contains).map (· + 1) := by
    simp [List.findIdx?_cons, hr, hn]
  cases h with
  | run hnext hlater =>
    cases hfind : rest.findIdx? ['\n', '\r'].contains with
    | some i =>
      simp only [next, hfind] at hnext
      cases hnext
      apply Yields.run _ hlater
      simp [next, hskip, hfind]
    | none =>
      simp only [next, hfind] at hnext
      cases hnext
      -- the run is the last one, with the character in front and without it
      cases hlater with
      | run hdone _ => cases hdone
      | ended _ =>
        apply Yields.run _ (Yields.ended (s := ⟨c :: rest, false, true⟩) rfl)
        simp [next, hskip, hfind]

/-- **A splitter gives the runs of the cut.** -/
theorem yields_cut (cs : List Char) : Yields ⟨cs, false, false⟩ ((cut cs).map Run.text) := by
  fun_induction cut cs with
  | case1 => exact .run rfl (.ended rfl)
  | case2 rest ih => exact yields_mark .crlf (fun h => by cases h) ih
  | case3 rest hlf ih => exact yields_mark .cr (fun _ => hlf) ih
  | case4 rest ih => exact yields_mark .lf (fun h => by cases h) ih
  | case5 c rest _ hcr hlf ih =>
    obtain ⟨chars, more, hcut⟩ := exists_stretch_cut rest
    rw [hcut] at ih ⊢
    have hcons := yields_cons hcr hlf ih
    rw [Run.text, String.toList_ofList] at hcons
    exact hcons

end Splitter

/-- **The runs of a text are its only alternating cut.** Texts make up `text`, odd in number, those at even
    places without line ends and those at odd places single line ends, with no CR and LF of two line
    ends next to each other, exactly if they are the runs of `text` in their order. These are also the
    texts that a splitter gives before it ends. Of the runs those at odd places are the ones whose text
    is a line end, and the ones that are marked as one. -/
theorem runs_only_alternating (text : String) :
    (∀ pieces, Alternates pieces ∧ String.join pieces = text ↔ pieces = (runs text).map Run.text) ∧
    (∀ pieces, (Splitter.ofText text).Yields pieces ↔ pieces = (runs text).map Run.text) ∧
    ∀ i run, (runs text)[i]? = some run →
      (isNewline run.text = true ↔ i % 2 = 1) ∧ (i % 2 = 1 ↔ ∃ mark, run = .newline mark) := by
  have halternates := alternates_cut text.toList
  have hyields := Splitter.yields_cut text.toList
  refine ⟨?_, ?_, ?_⟩
  · intro pieces
    constructor
    · rintro ⟨h, rfl⟩
      exact (map_text_cut_of_alternates pieces h).symm
    · rintro rfl
      refine ⟨halternates, ?_⟩
      rw [← String.toList_inj, runs, join_map_text, flatMap_chars_cut]
  · intro pieces
    constructor
    · intro h
      exact h.unique hyields
    · rintro rfl
      exact hyields
  · intro i run hi
    have hmark := isNewline_text_of_mem_cut (List.mem_of_getElem? hi)
    have hplace : isNewline run.text = true ↔ i % 2 = 1 := by
      have hpiece : ((cut text.toList).map Run.text)[i]? = some run.text := by
        rw [List.getElem?_map]
        exact congrArg (Option.map Run.text) hi
      rw [isNewline_iff]
      constructor
      · intro hend
        by_cases heven : i % 2 = 0
        · exact absurd hend (halternates.plain i _ hpiece heven).not_isMark
        · omega
      · exact halternates.mark i _ hpiece
    exact ⟨hplace, hplace.symm.trans hmark⟩

/-- A CR, an LF and a pair in a row, with a character in front: the CR stands alone because what follows it
    is a pair. -/
theorem runs_only_alternating_mixed :
    (runs "é\r\r\n\n").map Run.text = ["é", "\r", "", "\r\n", "", "\n", ""] ∧
      (Splitter.ofText "é\r\r\n\n").Yields ["é", "\r", "", "\r\n", "", "\n", ""] ∧
      ¬ Alternates ["é", "\r", "", "\r", "", "\n", "", "\n", ""] := by
  refine ⟨by decide, ?_, ?_⟩
  · exact ((runs_only_alternating "é\r\r\n\n").2.1 _).mpr (by decide)
  · intro h
    have hruns := ((runs_only_alternating "é\r\r\n\n").1 _).mp ⟨h, by decide⟩
    exact absurd hruns (by decide)

end Text

end LosslessTree
