import LosslessTree.Proofs.PositionLookup

/-!
# `Proofs.Tiling` — the characters of a tree fill its lines

Between two cursors a text fills every line from the first column that is still free up to some last one.
Such a stretch of text is said to tile the lines from the one cursor to the other. A character tiles up to
the next column, a line end up to the next line without taking anything, and two stretches that meet at a
cursor tile as one: on the line where they meet the second goes on at the column where the first has
stopped. So a whole tree, however it is cut into leaves and nested, tiles the lines from the start of its
text to the cursor after it.

Seen from outside: on every line a position resolves up to some column and from there on nothing does; no
line is added but by a line end; and each other character makes one position resolve.

## Contents
- **`Position.Tiles`**, with `Tiles.char`, `Tiles.newline` and `Tiles.append`.
- **Text and leaves.** `Text.tiles_occupied`, `Leaf.tiles_layout`.
- **Counts.** `Text.isLineEnd`, `Leaf.length_layout`, `Leaf.line_cursorAfter_le`.
- **`Node.resolves_without_gaps`**, the positions at which a tree resolves.
-/

namespace LosslessTree

/-! ## Stretches without a gap -/

namespace Position

/-- The first column of a line that is free when the cursor is at `p`: that of the cursor on its own line,
    and 1 on a later one. -/
def firstFree (p : Position) (line : Int) : Int := if line = p.line then p.column else 1

/-- Reading from the cursor `p` to the cursor `q` takes `places`, and leaves no gap. -/
structure Tiles (p q : Position) (places : List Position) : Prop where
  line_le : p.line ≤ q.line
  within : ∀ x ∈ places, p.line ≤ x.line ∧ x.line ≤ q.line
  /-- On each line the columns from the first free one up to `stop`; on the line of `q`, up to `q`. -/
  row : ∀ line, p.line ≤ line → line ≤ q.line → ∃ stop, p.firstFree line ≤ stop ∧
    (line = q.line → stop = q.column) ∧
    ∀ column, ⟨line, column⟩ ∈ places ↔ p.firstFree line ≤ column ∧ column < stop

theorem firstFree_self (p : Position) : p.firstFree p.line = p.column := if_pos rfl

theorem firstFree_of_lt {p : Position} {line : Int} (h : p.line < line) : p.firstFree line = 1 :=
  if_neg (by omega)

namespace Tiles

variable {p q r : Position} {xs ys : List Position}

theorem nil (p : Position) : Tiles p p [] where
  line_le := Int.le_refl _
  within := fun _ h => absurd h List.not_mem_nil
  row := by
    intro line hfrom hto
    obtain rfl : line = p.line := by omega
    refine ⟨p.column, Int.le_of_eq p.firstFree_self, fun _ => rfl, ?_⟩
    intro column
    simp only [List.not_mem_nil, firstFree_self, false_iff]
    omega

/-- A line end takes nothing. -/
theorem newline (p : Position) : Tiles p p.nextLine [] where
  line_le := by
    simp only [nextLine]
    omega
  within := fun _ h => absurd h List.not_mem_nil
  row := by
    intro line hfrom hto
    refine ⟨p.firstFree line, Int.le_refl _, ?_, ?_⟩
    · intro hline
      exact firstFree_of_lt (by rw [hline]; simp only [nextLine]; omega)
    · intro column
      simp only [List.not_mem_nil, false_iff]
      omega

/-- A character takes the position of the cursor. -/
theorem char (p : Position) : Tiles p (p.shift 1) [p] where
  line_le := Int.le_refl _
  within := by
    intro x hx
    rw [List.mem_singleton.mp hx]
    exact ⟨Int.le_refl _, Int.le_refl _⟩
  row := by
    intro line hfrom hto
    simp only [shift] at hto
    obtain rfl : line = p.line := by omega
    refine ⟨p.column + 1, ?_, fun _ => rfl, ?_⟩
    · rw [firstFree_self]
      omega
    · intro column
      show ⟨p.line, column⟩ ∈ p.columns 1 ↔ _
      rw [mem_columns_iff, firstFree_self]
      exact and_iff_right rfl

/-- Where two stretches meet, the second goes on at the column where the first has stopped. -/
theorem append (h : Tiles p q xs) (h' : Tiles q r ys) : Tiles p r (xs ++ ys) where
  line_le := Int.le_trans h.line_le h'.line_le
  within := by
    have hpq := h.line_le
    have hqr := h'.line_le
    intro x hx
    rcases List.mem_append.mp hx with hx | hx
    · have hxs := h.within x hx
      omega
    · have hys := h'.within x hx
      omega
  row := by
    intro line hfrom hto
    simp only [List.mem_append]
    rcases Int.lt_trichotomy line q.line with hlt | rfl | hgt
    · -- only the first stretch is on this line
      have hys : ∀ column, (⟨line, column⟩ : Position) ∉ ys := by
        intro column hm
        have hin := (h'.within _ hm).1
        simp only at hin
        omega
      obtain ⟨stop, hstop, -, hrow⟩ := h.row line hfrom (by omega)
      refine ⟨stop, hstop, ?_, ?_⟩
      · intro hline
        have hqr := h'.line_le
        omega
      · intro column
        rw [← hrow]
        exact ⟨fun hm => hm.resolve_right (hys column), Or.inl⟩
    · -- the two meet on this line
      obtain ⟨stop, hstop, hcolumn, hrow⟩ := h.row q.line hfrom (Int.le_refl _)
      obtain ⟨stop', hstop', hcolumn', hrow'⟩ := h'.row q.line (Int.le_refl _) hto
      obtain rfl := hcolumn rfl
      rw [firstFree_self] at hstop' hrow'
      refine ⟨stop', by omega, hcolumn', ?_⟩
      intro column
      rw [hrow, hrow']
      omega
    · -- only the second stretch is on this line
      have hpq := h.line_le
      have hxs : ∀ column, (⟨line, column⟩ : Position) ∉ xs := by
        intro column hm
        have hin := (h.within _ hm).2
        simp only at hin
        omega
      obtain ⟨stop, hstop, hcolumn, hrow⟩ := h'.row line (by omega) hto
      rw [firstFree_of_lt hgt] at hstop hrow
      refine ⟨stop, ?_, hcolumn, ?_⟩
      · rw [firstFree_of_lt (by omega)]
        exact hstop
      · intro column
        rw [firstFree_of_lt (by omega), ← hrow]
        exact ⟨fun hm => hm.resolve_left (hxs column), Or.inr⟩

/-- From the start of the text on, each line is taken from column 1 up to some width. -/
theorem exists_width (h : Tiles start q xs) (line : Int) :
    ∃ width : Nat, (∀ column : Int, ⟨line, column⟩ ∈ xs ↔ 1 ≤ column ∧ column ≤ width) ∧
      (line < 1 ∨ q.line < line → width = 0) := by
  by_cases hline : 1 ≤ line ∧ line ≤ q.line
  · obtain ⟨stop, hstop, -, hrow⟩ := h.row line hline.1 hline.2
    have hfirst : start.firstFree line = 1 := by
      unfold firstFree start
      split <;> rfl
    rw [hfirst] at hstop hrow
    refine ⟨(stop - 1).toNat, ?_, by omega⟩
    intro column
    rw [hrow]
    omega
  · refine ⟨0, ?_, fun _ => rfl⟩
    intro column
    constructor
    · intro hm
      exact absurd (h.within _ hm) hline
    · omega

end Tiles

end Position

/-! ## Text and leaves -/

/-- The characters of a text leave no gap. -/
theorem Text.tiles_occupied (p : Position) (cs : List Char) :
    p.Tiles (Text.cursorAfter p cs) (Text.occupied p cs) := by
  fun_induction Text.occupied p cs with
  | case1 p => exact .nil p
  | case2 p rest ih => exact (Position.Tiles.newline p).append ih
  | case3 p rest hlf ih =>
    rw [Text.cursorAfter]
    · exact (Position.Tiles.newline p).append ih
    · exact hlf
  | case4 p rest ih => exact (Position.Tiles.newline p).append ih
  | case5 p c rest hcrlf hcr hlf ih =>
    rw [Text.cursorAfter]
    · exact (Position.Tiles.char p).append ih
    · exact hcrlf
    · exact hcr
    · exact hlf

/-- Nor do the characters of leaves. -/
theorem Leaf.tiles_layout (p : Position) (leaves : List Leaf) :
    p.Tiles (Leaf.cursorAfter p leaves) ((Leaf.layout p leaves).map (·.1)) := by
  induction leaves generalizing p with
  | nil => exact .nil p
  | cons leaf rest ih =>
    rw [Leaf.map_layout_cons]
    exact (Text.tiles_occupied p _).append (ih _)

/-! ## Counts -/

namespace Text

/-- The characters that line ends are made of. -/
def isLineEnd (c : Char) : Bool := c == '\r' || c == '\n'

theorem isLineEnd_of_ne {c : Char} (hcr : c ≠ '\r') (hlf : c ≠ '\n') : isLineEnd c = false := by
  simp [isLineEnd, hcr, hlf]

/-- Each character other than line ends occupies a position. -/
theorem length_occupied (p : Position) (cs : List Char) :
    (occupied p cs).length = cs.countP (!isLineEnd ·) := by
  fun_induction occupied p cs with
  | case1 p => rfl
  | case2 p rest ih => simp [ih, isLineEnd]
  | case3 p rest _ ih => simp [ih, isLineEnd]
  | case4 p rest ih => simp [ih, isLineEnd]
  | case5 p c rest _ hcr hlf ih => simp [ih, isLineEnd_of_ne hcr hlf]

/-- Only line ends add lines. -/
theorem line_cursorAfter_le (p : Position) (cs : List Char) :
    (cursorAfter p cs).line ≤ p.line + cs.countP isLineEnd := by
  fun_induction cursorAfter p cs with
  | case1 p => simp
  | case2 p rest ih =>
    rw [List.countP_cons_of_pos rfl, List.countP_cons_of_pos rfl]
    have hline : p.nextLine.line = p.line + 1 := rfl
    omega
  | case3 p rest _ ih =>
    rw [List.countP_cons_of_pos rfl]
    have hline : p.nextLine.line = p.line + 1 := rfl
    omega
  | case4 p rest ih =>
    rw [List.countP_cons_of_pos rfl]
    have hline : p.nextLine.line = p.line + 1 := rfl
    omega
  | case5 p c rest _ hcr hlf ih =>
    rw [List.countP_cons_of_neg (by simp [isLineEnd_of_ne hcr hlf])]
    exact ih

end Text

namespace Leaf

theorem length_layout (p : Position) (leaves : List Leaf) :
    (layout p leaves).length = (texts leaves).toList.countP (!Text.isLineEnd ·) := by
  induction leaves generalizing p with
  | nil => rfl
  | cons leaf rest ih =>
    rw [layout, List.length_append, List.length_map, ih, Text.length_occupied, texts,
      String.toList_append, List.countP_append]

theorem line_cursorAfter_le (p : Position) (leaves : List Leaf) :
    (cursorAfter p leaves).line ≤ p.line + (texts leaves).toList.countP Text.isLineEnd := by
  induction leaves generalizing p with
  | nil => simp [cursorAfter, texts]
  | cons leaf rest ih =>
    have hleaf := Text.line_cursorAfter_le p leaf.text.toList
    have hrest := ih (Text.cursorAfter p leaf.text.toList)
    rw [cursorAfter, texts, String.toList_append, List.countP_append]
    omega

/-- No position is taken twice. -/
theorem nodup_layout (p : Position) (leaves : List Leaf) : ((layout p leaves).map (·.1)).Nodup := by
  rw [List.Nodup, List.pairwise_map]
  apply (pairwise_layout p leaves).imp
  intro x y hlt
  exact ne_of_lt hlt

end Leaf

/-! ## Coordinates of occupied positions -/

namespace Position

/-- A position that a text occupies has as much room behind it as the cursor after the text needs. -/
theorem Room.of_mem_occupied {p x : Position} {cs : List Char} {n : Nat}
    (h : p.Room (cs.length + n)) (hx : x ∈ Text.occupied p cs) : x.Room n := by
  fun_induction Text.occupied p cs with
  | case1 => cases hx
  | case2 p rest ih =>
    have hroom : p.Room (1 + (rest.length + n)) := h.mono (by simp only [List.length_cons]; omega)
    exact ih hroom.nextLine.2 hx
  | case3 p rest _ ih =>
    have hroom : p.Room (1 + (rest.length + n)) := h.mono (by simp only [List.length_cons]; omega)
    exact ih hroom.nextLine.2 hx
  | case4 p rest ih =>
    have hroom : p.Room (1 + (rest.length + n)) := h.mono (by simp only [List.length_cons]; omega)
    exact ih hroom.nextLine.2 hx
  | case5 p c rest _ _ _ ih =>
    have hroom : p.Room (1 + (rest.length + n)) := h.mono (by simp only [List.length_cons]; omega)
    rcases List.mem_cons.mp hx with rfl | hx
    · exact hroom.mono (by omega)
    · exact ih hroom.shift.2 hx

theorem Room.of_mem_layout {p : Position} {leaves : List Leaf} {x : Position × Leaf}
    (h : p.Room (Leaf.texts leaves).length) (hx : x ∈ Leaf.layout p leaves) : x.1.Room 0 := by
  induction leaves generalizing p with
  | nil => cases hx
  | cons leaf rest ih =>
    rw [Leaf.texts, String.length_append, ← String.length_toList] at h
    rcases Leaf.mem_layout_cons.mp hx with ⟨hin, -⟩ | hin
    · exact (h.of_mem_occupied hin).mono (Nat.zero_le _)
    · exact ih h.cursorAfter hin

/-- A position with room has coordinates. -/
theorem Room.inRange {p : Position} {n : Nat} (h : p.Room n) :
    Coordinate.InRange p.line ∧ Coordinate.InRange p.column := by
  unfold Room at h
  unfold Coordinate.InRange Coordinate.least
  omega

end Position

/-! ## Trees -/

/-- **No gaps and no overlaps.** Every search in a tree comes to an end. On each line, the columns at which
    it finds a node are those from 1 up to some width, which is 0 in front of line 1 and behind the last
    line that the line ends of the text can make. The positions at which it finds a node are as many as
    the text has characters other than line ends, and all of them have coordinates. -/
theorem Node.resolves_without_gaps (tree : Node) (hfits : tree.Fits) :
    (∀ target, ∃ found, tree.pathAt target = .ok found) ∧
    (∀ line : Int, ∃ width : Nat,
      (∀ column : Int, (∃ path, tree.pathAt ⟨line, column⟩ = .ok (some path)) ↔
        1 ≤ column ∧ column ≤ width) ∧
      (line < 1 ∨ 1 + tree.render.toList.countP Text.isLineEnd < line → width = 0)) ∧
    ∃ places : List Position, places.Nodup ∧
      (∀ target, target ∈ places ↔ ∃ path, tree.pathAt target = .ok (some path)) ∧
      (∀ target ∈ places, Coordinate.InRange target.line ∧ Coordinate.InRange target.column) ∧
      places.length = tree.render.toList.countP (!Text.isLineEnd ·) := by
  have htexts : Leaf.texts tree.leaves = tree.render := Node.texts_leavesFrom Path.root tree
  have hlast := Leaf.line_cursorAfter_le Position.start tree.leaves
  rw [htexts] at hlast
  refine ⟨?_, ?_, (Leaf.layout Position.start tree.leaves).map (·.1), Leaf.nodup_layout _ _, ?_, ?_, ?_⟩
  · intro target
    obtain ⟨found, hfound, -⟩ := Node.pathAt_located hfits target
    exact ⟨found, hfound⟩
  · intro line
    obtain ⟨width, hrow, hempty⟩ := (Leaf.tiles_layout Position.start tree.leaves).exists_width line
    refine ⟨width, ?_, ?_⟩
    · intro column
      rw [Node.exists_pathAt_iff hfits]
      exact hrow column
    · intro hline
      apply hempty
      rcases hline with hbefore | hbehind
      · exact Or.inl hbefore
      · exact Or.inr (Int.lt_of_le_of_lt hlast hbehind)
  · intro target
    exact (Node.exists_pathAt_iff hfits target).symm
  · intro target hm
    obtain ⟨x, hx, rfl⟩ := List.mem_map.mp hm
    exact (hfits.room.of_mem_layout hx).inRange
  · rw [List.length_map, Leaf.length_layout, htexts]

/-- Two lines of three and one columns, with an empty line between them, cut inside and between the
    leaves. -/
theorem Node.resolves_without_gaps_lines :
    let tree : Node := .list [.constant "ab", .list [], .composite "t" [.text "c\r\n\n"], .constant "d"]
    tree.Fits ∧
      (∀ line : Int, ∃ width : Nat, ∀ column : Int,
        (∃ path, tree.pathAt ⟨line, column⟩ = .ok (some path)) ↔ 1 ≤ column ∧ column ≤ width) ∧
      ∃ places : List Position, places.Nodup ∧
        (∀ target, target ∈ places ↔ ∃ path, tree.pathAt target = .ok (some path)) ∧
        places.length = 4 := by
  intro tree
  have hfits : tree.Fits := by decide
  obtain ⟨-, hlines, places, hnodup, hplaces, -, hlength⟩ := Node.resolves_without_gaps tree hfits
  have htext : tree.render = "abc\r\n\nd" := by decide
  rw [htext] at hlength
  refine ⟨hfits, ?_, places, hnodup, hplaces, hlength⟩
  intro line
  obtain ⟨width, hrow, -⟩ := hlines line
  exact ⟨width, hrow⟩

end LosslessTree
