import LosslessTree.Proofs.LeafCuts
import LosslessTree.Proofs.LineRuns

/-!
# `Proofs.TextParts` — a text passed over in two parts

A measurement passes over a text run by run. When a text `a ++ b` comes in two parts, its runs are those of
the parts, with the last stretch of `a` and the first of `b` made one. There is one exception: a CR at the
end of `a` and an LF at the beginning of `b` are two line ends in the parts and one in the whole.

For a measurement a stretch may be cut anywhere, since it adds up columns, and an overflow of the sum is an
overflow of one of the steps to it and the other way round. So outside of the exception the parts do to a
measurement just what the whole does. In the exception they take the cursor over one line end more, and
from there on both go the same way, one line apart.

Nothing here asks for a cursor within a text: line and column may be any coordinates, negative ones too.

## Contents
- **Runs.** `Text.cut_append`, `Text.cut_append_of_tears`.
- **Stretches.** `Measure.consume_append`, `Measure.consume_single`, `Measure.consume_stretch_append`.
- **One line apart.** `Measure.consume_down`.
- **`Measure.consume_in_parts`**.
-/

namespace LosslessTree

/-! ## Runs -/

namespace Text

/-- **The runs of two parts.** Where no line end is cut in two, the last stretch of the one part and the
    first of the other make one stretch of the whole. -/
theorem cut_append {a b t : List Char} {later : List Run} (h : ¬ Tears a b)
    (hb : cut b = .stretch t :: later) :
    ∃ earlier s, cut a = earlier ++ [.stretch s] ∧
      cut (a ++ b) = earlier ++ .stretch (s ++ t) :: later := by
  fun_induction cut a with
  | case1 => exact ⟨[], [], rfl, hb⟩
  | case2 rest ih =>
    obtain ⟨earlier, s, hrest, hwhole⟩ := ih fun htears => h ((htears.cons _).cons _)
    refine ⟨.stretch [] :: .newline .crlf :: earlier, s, by rw [hrest]; rfl, ?_⟩
    show .stretch [] :: .newline .crlf :: cut (rest ++ b) = _
    rw [hwhole]
    rfl
  | case3 rest hlf ih =>
    obtain ⟨earlier, s, hrest, hwhole⟩ := ih fun htears => h (htears.cons _)
    refine ⟨.stretch [] :: .newline .cr :: earlier, s, by rw [hrest]; rfl, ?_⟩
    -- the CR stays alone in the whole text
    have hnext : ∀ more, rest ++ b = '\n' :: more → False := by
      intro more hmore
      cases rest with
      | nil => exact h ⟨rfl, by rw [show b = '\n' :: more from hmore]; rfl⟩
      | cons c cs =>
        injection hmore with hc hmore
        exact hlf cs (by rw [hc])
    rw [List.cons_append, cut, hwhole]
    · rfl
    · exact hnext
  | case4 rest ih =>
    obtain ⟨earlier, s, hrest, hwhole⟩ := ih fun htears => h (htears.cons _)
    refine ⟨.stretch [] :: .newline .lf :: earlier, s, by rw [hrest]; rfl, ?_⟩
    show .stretch [] :: .newline .lf :: cut (rest ++ b) = _
    rw [hwhole]
    rfl
  | case5 c rest _ hcr hlf ih =>
    obtain ⟨earlier, s, hrest, hwhole⟩ := ih fun htears => h (htears.cons _)
    have hcut : cut (c :: (rest ++ b)) = Run.consFirst c (cut (rest ++ b)) := by
      rw [cut]
      · exact fun _ hc _ => hcr hc
      · exact hcr
      · exact hlf
    rw [List.cons_append, hcut, hwhole, hrest]
    cases earlier with
    | nil => exact ⟨[], c :: s, rfl, rfl⟩
    | cons run earlier =>
      -- the character goes into the first stretch, which is in front of the cut
      obtain ⟨first, more, hfirst⟩ := exists_stretch_cut rest
      rw [hrest] at hfirst
      injection hfirst with hrun
      rw [hrun]
      exact ⟨.stretch (c :: first) :: earlier, s, rfl, rfl⟩

/-- **A line end cut in two.** The two halves are line ends of the parts and one line end of the whole. -/
theorem cut_append_of_tears {a b : List Char} (h : Tears a b) :
    ∃ earlier later, cut a = earlier ++ [.newline .cr, .stretch []] ∧
      cut b = .stretch [] :: .newline .lf :: later ∧
      cut (a ++ b) = earlier ++ .newline .crlf :: later := by
  obtain ⟨hcr, hlf⟩ := h
  obtain ⟨front, rfl⟩ := List.getLast?_eq_some_iff.mp hcr
  obtain ⟨rest, rfl⟩ := List.head?_eq_some_iff.mp hlf
  -- in front of the CR the text can be cut
  obtain ⟨earlier, s, hfront, hpart⟩ :=
    cut_append (a := front) (b := ['\r']) (by simp [Tears]) rfl
  obtain ⟨earlier', s', hfront', hwhole⟩ :=
    cut_append (a := front) (b := '\r' :: '\n' :: rest) (by simp [Tears]) rfl
  rw [hfront] at hfront'
  obtain ⟨rfl, hs⟩ := List.append_inj' hfront' rfl
  cases hs
  refine ⟨earlier ++ [.stretch (s ++ [])], cut rest, ?_, rfl, ?_⟩
  · rw [hpart]
    simp [cut]
  · rw [List.append_assoc, List.singleton_append, hwhole]
    simp

end Text

/-! ## Steps of the cursor -/

namespace Position

/-- Line and column are coordinates. -/
def IsCoordinates (p : Position) : Prop := Coordinate.InRange p.line ∧ Coordinate.InRange p.column

instance (p : Position) : Decidable p.IsCoordinates := inferInstanceAs (Decidable (_ ∧ _))

theorem advanceLine_eq_ok_iff {p q : Position} :
    p.advanceLine = .ok q ↔ Coordinate.InRange (p.line + 1) ∧ q = p.nextLine := by
  unfold advanceLine Coordinate.add
  by_cases h : Coordinate.InRange (p.line + 1)
  · rw [Coordinate.settle_eq_ok h]
    constructor
    · intro heq
      cases heq
      exact ⟨h, rfl⟩
    · rintro ⟨-, rfl⟩
      rfl
  · rw [Coordinate.settle_eq_error h]
    constructor
    · intro heq
      cases heq
    · intro hq
      exact absurd hq.1 h

/-- Columns can be counted in two parts. -/
theorem columns_add (p : Position) (m n : Nat) :
    p.columns (m + n) = p.columns m ++ (p.shift m).columns n := by
  induction m generalizing p with
  | zero => rw [Nat.zero_add, shift_zero]; rfl
  | succ m ih =>
    rw [Nat.add_right_comm, columns, columns, ih, shift_shift, Nat.add_comm 1]
    rfl

end Position

/-! ## Stretches -/

namespace Measure

variable {m : Measure}

/-- Runs are passed over one after the other. -/
theorem consume_append (m : Measure) (xs ys : List Run) :
    m.consume (xs ++ ys) = m.consume xs >>= consume ys := by
  induction xs generalizing m with
  | nil => rfl
  | cons run rest ih =>
    cases run with
    | newline mark =>
      rw [List.cons_append, consume, consume]
      cases m.cursor.advanceLine with
      | error e => rfl
      | ok cursor => exact ih _
    | stretch chars =>
      cases chars with
      | nil => exact ih m
      | cons c chars =>
        rw [List.cons_append, consume, consume]
        cases m.cursor.advanceColumns (Coordinate.ofCount (c :: chars).length) with
        | error e => rfl
        | ok cursor =>
          cases hleft : cursor.left with
          | error e => simp only [bind, Except.bind, hleft]
          | ok last =>
            simp only [bind, Except.bind, hleft] at ih ⊢
            exact ih _

/-- **A stretch** is passed over if the column behind it is a coordinate. -/
theorem consume_single {chars : List Char} (hcolumn : Coordinate.InRange m.cursor.column)
    (hlength : (chars.length : Int) ≤ Coordinate.greatest) :
    m.consume [.stretch chars] =
      if m.cursor.column + chars.length ≤ Coordinate.greatest then
        .ok (m.read (m.cursor.columns chars.length) (m.cursor.shift chars.length))
      else .error .add := by
  cases chars with
  | nil =>
    rw [List.length_nil, Int.natCast_zero, Int.add_zero, if_pos hcolumn.2, Position.columns,
      Position.shift_zero, read_nil]
    rfl
  | cons c chars =>
    unfold Coordinate.InRange at hcolumn
    rw [consume, Position.advanceColumns, Coordinate.ofCount_eq hlength, Coordinate.add]
    by_cases hend : m.cursor.column + (c :: chars).length ≤ Coordinate.greatest
    · have hrange : Coordinate.InRange (m.cursor.column + (c :: chars).length) := by
        unfold Coordinate.InRange
        omega
      -- the step back to the last column stays behind the column where the stretch began
      have hback : m.cursor.column + (c :: chars).length - 1 = m.cursor.column + chars.length := by
        rw [List.length_cons]
        omega
      have hlast : Coordinate.InRange (m.cursor.column + chars.length) := by
        rw [List.length_cons] at hend
        unfold Coordinate.InRange
        omega
      rw [if_pos hend, Coordinate.settle_eq_ok hrange]
      show ((Position.left ⟨m.cursor.line, m.cursor.column + (c :: chars).length⟩).bind _) = _
      rw [Position.left, Coordinate.subtract, hback, Coordinate.settle_eq_ok hlast, List.length_cons,
        read_columns]
      rfl
    · have hout : ¬ Coordinate.InRange (m.cursor.column + (c :: chars).length) := by
        unfold Coordinate.InRange
        omega
      rw [if_neg hend, Coordinate.settle_eq_error hout]
      rfl

/-- **A stretch may be cut anywhere.** -/
theorem consume_stretch_append {s t : List Char} (hcolumn : Coordinate.InRange m.cursor.column)
    (hlength : ((s ++ t).length : Int) ≤ Coordinate.greatest) :
    m.consume [.stretch (s ++ t)] = m.consume [.stretch s] >>= consume [.stretch t] := by
  have hsum : (s ++ t).length = s.length + t.length := List.length_append
  rw [consume_single hcolumn hlength, consume_single hcolumn (by omega), hsum]
  by_cases hs : m.cursor.column + s.length ≤ Coordinate.greatest
  · have hmoved : Coordinate.InRange (m.cursor.shift s.length).column := by
      unfold Coordinate.InRange at *
      simp only [Position.shift]
      omega
    rw [if_pos hs]
    show _ = consume [.stretch t] (m.read (m.cursor.columns s.length) (m.cursor.shift s.length))
    rw [consume_single hmoved (by omega)]
    by_cases ht : m.cursor.column + (s.length + t.length : Nat) ≤ Coordinate.greatest
    · rw [if_pos ht, if_pos (by simp only [read, Position.shift]; omega), read_read]
      simp only [read, Position.shift_shift, Position.columns_add]
    · rw [if_neg ht, if_neg (by simp only [read, Position.shift]; omega)]
  · rw [if_neg hs, if_neg (by omega)]
    rfl

/-- A run that can be passed over leaves a measurement from which the others are. -/
theorem consume_cons_eq_ok {run : Run} {rest : List Run} {final : Measure}
    (h : m.consume (run :: rest) = .ok final) :
    ∃ next, m.consume [run] = .ok next ∧ next.consume rest = .ok final := by
  rw [← List.singleton_append, consume_append] at h
  cases hrun : m.consume [run] with
  | error e =>
    rw [hrun] at h
    cases h
  | ok next =>
    rw [hrun] at h
    exact ⟨next, rfl, h⟩

theorem consume_newline_eq_ok_iff {mark : Newline} {next : Measure} :
    m.consume [.newline mark] = .ok next ↔
      Coordinate.InRange (m.cursor.line + 1) ∧ next = { m with cursor := m.cursor.nextLine } := by
  rw [consume]
  constructor
  · intro h
    cases hline : m.cursor.advanceLine with
    | error e =>
      rw [hline] at h
      cases h
    | ok cursor =>
      obtain ⟨hrange, rfl⟩ := Position.advanceLine_eq_ok_iff.mp hline
      rw [hline] at h
      cases h
      exact ⟨hrange, rfl⟩
  · rintro ⟨hrange, rfl⟩
    rw [Position.advanceLine_eq_ok_iff.mpr ⟨hrange, rfl⟩]
    rfl

theorem consume_stretch_eq_ok_iff {chars : List Char} {next : Measure}
    (hcolumn : Coordinate.InRange m.cursor.column)
    (hlength : (chars.length : Int) ≤ Coordinate.greatest) :
    m.consume [.stretch chars] = .ok next ↔
      m.cursor.column + chars.length ≤ Coordinate.greatest ∧
        next = m.read (m.cursor.columns chars.length) (m.cursor.shift chars.length) := by
  rw [consume_single hcolumn hlength]
  by_cases h : m.cursor.column + chars.length ≤ Coordinate.greatest
  · rw [if_pos h]
    constructor
    · intro hok
      cases hok
      exact ⟨h, rfl⟩
    · rintro ⟨-, rfl⟩
      rfl
  · rw [if_neg h]
    constructor
    · intro hok
      cases hok
    · intro hnext
      exact absurd hnext.1 h

/-- One run leaves the cursor among the coordinates. -/
theorem isCoordinates_of_run {run : Run} {next : Measure} (h : m.cursor.IsCoordinates)
    (hlength : (run.chars.length : Int) ≤ Coordinate.greatest) (hok : m.consume [run] = .ok next) :
    next.cursor.IsCoordinates := by
  obtain ⟨hline, hcolumn⟩ := h
  unfold Position.IsCoordinates
  cases run with
  | newline mark =>
    obtain ⟨hrange, rfl⟩ := consume_newline_eq_ok_iff.mp hok
    refine ⟨hrange, ?_⟩
    show Coordinate.InRange 1
    decide
  | stretch chars =>
    obtain ⟨hend, rfl⟩ := (consume_stretch_eq_ok_iff hcolumn hlength).mp hok
    refine ⟨hline, ?_⟩
    unfold Coordinate.InRange at *
    simp only [read, Position.shift]
    omega

theorem isCoordinates_of_consume {runs : List Run} {final : Measure} (h : m.cursor.IsCoordinates)
    (hsize : (Run.size runs : Int) ≤ Coordinate.greatest) (hok : m.consume runs = .ok final) :
    final.cursor.IsCoordinates := by
  induction runs generalizing m with
  | nil =>
    cases hok
    exact h
  | cons run rest ih =>
    rw [Run.size] at hsize
    obtain ⟨next, hrun, hrest⟩ := consume_cons_eq_ok hok
    exact ih (isCoordinates_of_run h (by omega) hrun) (by omega) hrest

/-! ## One line apart -/

/-- **The same runs from one line further down.** If they can be passed over there, so can they here, and
    the two cursors are one line apart in the end. -/
theorem consume_down {runs : List Run} {below final : Measure} (h : m.cursor.IsCoordinates)
    (hsize : (Run.size runs : Int) ≤ Coordinate.greatest) (hbelow : below.cursor = m.cursor.down 1)
    (hok : below.consume runs = .ok final) :
    ∃ last : Measure, m.consume runs = .ok last ∧ final.cursor = last.cursor.down 1 := by
  induction runs generalizing m below with
  | nil =>
    cases hok
    exact ⟨m, rfl, hbelow⟩
  | cons run rest ih =>
    rw [Run.size] at hsize
    obtain ⟨next, hrun, hrest⟩ := consume_cons_eq_ok hok
    -- one run first: it can be passed over here too, and leaves the cursors one line apart
    obtain ⟨here, hhere, hnext⟩ : ∃ here : Measure, m.consume [run] = .ok here ∧
        next.cursor = here.cursor.down 1 := by
      cases run with
      | newline mark =>
        obtain ⟨hrange, rfl⟩ := consume_newline_eq_ok_iff.mp hrun
        refine ⟨_, consume_newline_eq_ok_iff.mpr ⟨?_, rfl⟩, ?_⟩
        · have hline := h.1
          unfold Coordinate.InRange at *
          simp only [hbelow, Position.down] at hrange
          omega
        · simp only [hbelow, Position.nextLine_down]
      | stretch chars =>
        have hlength : (chars.length : Int) ≤ Coordinate.greatest := by
          rw [Run.chars] at hsize
          omega
        have hcolumn : Coordinate.InRange below.cursor.column := by
          rw [hbelow]
          exact h.2
        obtain ⟨hend, rfl⟩ := (consume_stretch_eq_ok_iff hcolumn hlength).mp hrun
        rw [hbelow] at hend
        refine ⟨_, (consume_stretch_eq_ok_iff h.2 hlength).mpr ⟨hend, rfl⟩, ?_⟩
        simp only [read, hbelow, Position.shift_down]
    obtain ⟨last, hlast, hfinal⟩ := ih (isCoordinates_of_run h (by omega) hhere) (by omega) hnext hrest
    refine ⟨last, ?_, hfinal⟩
    rw [← List.singleton_append, consume_append, hhere]
    exact hlast

/-! ## Two parts -/

/-- Where no line end is cut in two, the parts do to a measurement what the whole does, and fail where it
    fails. -/
theorem consume_of_not_tears {a b : List Char} (h : ¬ Text.Tears a b) (hm : m.cursor.IsCoordinates)
    (hlength : ((a ++ b).length : Int) ≤ Coordinate.greatest) :
    m.consume (Text.cut (a ++ b)) = m.consume (Text.cut a) >>= consume (Text.cut b) := by
  obtain ⟨t, later, hb⟩ := Text.exists_stretch_cut b
  obtain ⟨earlier, s, ha, hwhole⟩ := Text.cut_append h hb
  have hsize := Run.size_cut (a ++ b)
  rw [hwhole, Run.size_append, Run.size, Run.chars] at hsize
  have hone : m.consume (Text.cut (a ++ b)) =
      m.consume earlier >>= consume [.stretch (s ++ t)] >>= consume later := by
    rw [hwhole, ← List.singleton_append, ← List.append_assoc, consume_append, consume_append]
  have htwo : m.consume (Text.cut a) >>= consume (Text.cut b) =
      m.consume earlier >>= consume [.stretch s] >>= consume [.stretch t] >>= consume later := by
    have hlater : consume (Text.cut b) = fun m => m.consume [.stretch t] >>= consume later := by
      funext m
      rw [hb, ← List.singleton_append, consume_append]
    rw [ha, consume_append, hlater, bind_assoc _ (consume [.stretch t])]
  rw [hone, htwo]
  cases hearlier : m.consume earlier with
  | error e => rfl
  | ok next =>
    have hnext := isCoordinates_of_consume hm (by omega) hearlier
    show next.consume [.stretch (s ++ t)] >>= consume later =
      next.consume [.stretch s] >>= consume [.stretch t] >>= consume later
    rw [consume_stretch_append hnext.2 (by omega)]

/-- Where a line end is cut in two, the parts lead the cursor one line further than the whole. -/
theorem consume_of_tears {a b : List Char} {two : Measure} (h : Text.Tears a b)
    (hm : m.cursor.IsCoordinates) (hlength : ((a ++ b).length : Int) ≤ Coordinate.greatest)
    (htwo : m.consume (Text.cut a) >>= consume (Text.cut b) = .ok two) :
    ∃ one : Measure, m.consume (Text.cut (a ++ b)) = .ok one ∧ two.cursor = one.cursor.down 1 := by
  obtain ⟨earlier, later, ha, hb, hwhole⟩ := Text.cut_append_of_tears h
  have hsize := Run.size_cut (a ++ b)
  rw [hwhole, Run.size_append, Run.size] at hsize
  -- the parts pass over `earlier`, the CR, the LF and `later`
  rw [ha, hb, consume_append] at htwo
  cases hearlier : m.consume earlier with
  | error e =>
    rw [hearlier] at htwo
    cases htwo
  | ok next =>
    rw [hearlier] at htwo
    have hnext := isCoordinates_of_consume hm (by omega) hearlier
    obtain ⟨first, hfirst, hrest⟩ := consume_cons_eq_ok
      (show next.consume ([.newline .cr, .stretch []] ++ .stretch [] :: .newline .lf :: later) = .ok two by
        rw [consume_append]
        exact htwo)
    obtain ⟨second, hsecond, hlater⟩ := consume_cons_eq_ok
      (show first.consume (.newline .lf :: later) = .ok two from hrest)
    obtain ⟨hrange, rfl⟩ := consume_newline_eq_ok_iff.mp hfirst
    obtain ⟨-, rfl⟩ := consume_newline_eq_ok_iff.mp hsecond
    -- the whole is one line end behind
    have hwholeEnd : next.consume [.newline .crlf] = .ok { next with cursor := next.cursor.nextLine } :=
      consume_newline_eq_ok_iff.mpr ⟨hrange, rfl⟩
    obtain ⟨one, hone, hcursor⟩ := consume_down
      (m := { next with cursor := next.cursor.nextLine }) (isCoordinates_of_run hnext (by decide) hwholeEnd)
      (by omega) rfl hlater
    refine ⟨one, ?_, hcursor⟩
    rw [hwhole, ← List.singleton_append, ← List.append_assoc, consume_append, consume_append, hearlier]
    show next.consume [.newline .crlf] >>= consume later = _
    rw [hwholeEnd]
    exact hone

/-- **A text in two parts.** Where a measurement can pass over `a` and then over `b`, it can pass over
    `a ++ b` in one piece. The cursor ends at the same position if and only if `a` does not end with a CR
    or `b` does not begin with an LF. If they do, it ends one line further down in the same column. The
    measurement may stand anywhere among the coordinates; all that is asked of the text is that it can be
    held, in no more than `2^63 - 1` characters. -/
theorem consume_in_parts (m two : Measure) (a b : String) (hm : m.cursor.IsCoordinates)
    (hlength : ((a ++ b).length : Int) ≤ Coordinate.greatest)
    (htwo : m.consume (Text.runs a) >>= consume (Text.runs b) = .ok two) :
    ∃ one : Measure, m.consume (Text.runs (a ++ b)) = .ok one ∧
      (two.cursor = one.cursor ↔
        ¬ (a.toList.getLast? = some '\r' ∧ b.toList.head? = some '\n')) ∧
      (a.toList.getLast? = some '\r' ∧ b.toList.head? = some '\n' →
        two.cursor.line = one.cursor.line + 1 ∧ two.cursor.column = one.cursor.column) := by
  unfold Text.runs at *
  rw [← String.length_toList, String.toList_append] at hlength
  rw [String.toList_append]
  by_cases h : Text.Tears a.toList b.toList
  · obtain ⟨one, hone, hcursor⟩ := consume_of_tears h hm hlength htwo
    have hline : two.cursor.line = one.cursor.line + 1 := congrArg Position.line hcursor
    refine ⟨one, hone, ⟨?_, fun hnot => absurd h hnot⟩, ?_⟩
    · intro heq
      rw [heq] at hline
      omega
    · intro _
      refine ⟨hline, ?_⟩
      rw [hcursor]
      rfl
  · rw [← consume_of_not_tears h hm hlength] at htwo
    exact ⟨two, htwo, ⟨fun _ => h, fun _ => rfl⟩, fun htears => absurd htears h⟩

/-- A cursor left of the first column, which no text leads to: a pair that is cut in two takes it two lines
    down, and the whole text one; a cut behind the pair makes no difference. -/
theorem consume_in_parts_pair :
    let m : Measure := { Measure.start with cursor := ⟨3, -7⟩ }
    (∃ one two, m.consume (Text.runs ("ab\r" ++ "\nc")) = .ok one ∧
      m.consume (Text.runs "ab\r") >>= consume (Text.runs "\nc") = .ok two ∧
      two.cursor = ⟨5, 2⟩ ∧ one.cursor.line + 1 = 5 ∧ one.cursor.column = 2) ∧
    ∃ one two, m.consume (Text.runs ("ab\r\n" ++ "c")) = .ok one ∧
      m.consume (Text.runs "ab\r\n") >>= consume (Text.runs "c") = .ok two ∧
      two.cursor = one.cursor := by
  intro m
  have hm : m.cursor.IsCoordinates := by decide
  refine ⟨?_, ?_⟩
  · obtain ⟨one, hone, -, hdown⟩ := consume_in_parts m _ "ab\r" "\nc" hm (by decide) rfl
    obtain ⟨hline, hcolumn⟩ := hdown (by decide)
    exact ⟨one, _, hone, rfl, rfl, hline.symm, hcolumn.symm⟩
  · obtain ⟨one, hone, hsame, -⟩ := consume_in_parts m _ "ab\r\n" "c" hm (by decide) rfl
    exact ⟨one, _, hone, rfl, hsame.mpr (by decide)⟩

end Measure

end LosslessTree
