import Mathlib.Order.Defs.PartialOrder
import LosslessTree.Position
import LosslessTree.Proofs.Leaves
import LosslessTree.Text.Newline

/-!
# `Proofs.Layout` — where the characters of a tree stand

The layout of a tree is a plain reading of its leaves, character by character. A cursor starts at line 1,
column 1. A line end (CR LF, or CR or LF alone) takes it to the first column of the next line and
occupies nothing; any other character occupies the position of the cursor and moves it one column to
the right. Line ends are told apart within a leaf: a CR at the end of one leaf and an LF at the start of
the next are two.

Positions are occupied in strictly ascending order, each behind the cursor where its leaf began and in
front of the cursor after it. That is all that is needed to compare two stretches of text: what comes
earlier in the layout stands at smaller positions.

The resolvers do not read characters but runs. `Run.occupied` and `Run.cursorAfter` lay out runs, and
agree with the reading by characters on the runs of a text.

## Contents
- **By characters.** `Text.occupied`, `Text.cursorAfter`, and their order.
- **By leaves.** `Leaf.layout`, `Leaf.cursorAfter`.
- **By runs.** `Run.occupied`, `Run.cursorAfter`.
- **`Position.Room`**, a cursor from which so many characters cause no overflow.
-/

namespace LosslessTree

/-! ## Cursor steps without a range -/

namespace Position

/-- The first column of the next line. -/
def nextLine (p : Position) : Position := ⟨p.line + 1, 1⟩

/-- The position `n` columns to the right. -/
def shift (p : Position) (n : Nat) : Position := ⟨p.line, p.column + n⟩

/-- The `n` positions from `p` on along its line. -/
def columns (p : Position) : Nat → List Position
  | 0 => []
  | n + 1 => p :: columns (p.shift 1) n

theorem shift_zero (p : Position) : p.shift 0 = p := by
  cases p
  simp [shift]

theorem shift_shift (p : Position) (m n : Nat) : (p.shift m).shift n = p.shift (m + n) := by
  simp only [shift, Position.mk.injEq, true_and]
  omega

theorem mem_columns_iff {p x : Position} {n : Nat} :
    x ∈ p.columns n ↔ x.line = p.line ∧ p.column ≤ x.column ∧ x.column < p.column + n := by
  induction n generalizing p with
  | zero =>
    simp only [columns, List.not_mem_nil, false_iff]
    omega
  | succ n ih =>
    rw [columns, List.mem_cons, ih]
    simp only [shift]
    constructor
    · rintro (rfl | h) <;> omega
    · intro h
      by_cases hx : x.column = p.column
      · left
        cases x
        cases p
        simp_all
      · right
        omega

/-- Positions are ordered by line, and within a line by column. -/
instance : Preorder Position where
  le := (· ≤ ·)
  lt := (· < ·)
  le_refl p := Or.inr ⟨rfl, Int.le_refl p.column⟩
  le_trans p q r hpq hqr := by
    rw [le_iff] at *
    omega
  lt_iff_le_not_ge p q := by
    rw [lt_iff, le_iff, le_iff]
    omega

theorem line_le_of_le {p q : Position} (h : p ≤ q) : p.line ≤ q.line := by
  rw [le_iff] at h
  omega

theorem le_nextLine (p : Position) : p ≤ p.nextLine := Or.inl (Int.lt_succ p.line)

theorem lt_shift_one (p : Position) : p < p.shift 1 := Or.inr ⟨rfl, Int.lt_succ p.column⟩

end Position

/-! ## By characters -/

namespace Text

/-- The positions that the characters of a text occupy, read from a cursor on. -/
def occupied : Position → List Char → List Position
  | _, [] => []
  | p, '\r' :: '\n' :: rest => occupied p.nextLine rest
  | p, '\r' :: rest => occupied p.nextLine rest
  | p, '\n' :: rest => occupied p.nextLine rest
  | p, _ :: rest => p :: occupied (p.shift 1) rest

/-- The cursor after a text. -/
def cursorAfter : Position → List Char → Position
  | p, [] => p
  | p, '\r' :: '\n' :: rest => cursorAfter p.nextLine rest
  | p, '\r' :: rest => cursorAfter p.nextLine rest
  | p, '\n' :: rest => cursorAfter p.nextLine rest
  | p, _ :: rest => cursorAfter (p.shift 1) rest

/-- The cursor never goes back. -/
theorem le_cursorAfter (p : Position) (cs : List Char) : p ≤ cursorAfter p cs := by
  fun_induction cursorAfter p cs with
  | case1 p => exact le_refl p
  | case2 p rest ih => exact le_trans p.le_nextLine ih
  | case3 p rest _ ih => exact le_trans p.le_nextLine ih
  | case4 p rest ih => exact le_trans p.le_nextLine ih
  | case5 p c rest _ _ _ ih => exact le_trans (le_of_lt p.lt_shift_one) ih

theorem le_of_mem_occupied {p x : Position} {cs : List Char} (h : x ∈ occupied p cs) : p ≤ x := by
  fun_induction occupied p cs with
  | case1 => cases h
  | case2 p rest ih => exact le_trans p.le_nextLine (ih h)
  | case3 p rest _ ih => exact le_trans p.le_nextLine (ih h)
  | case4 p rest ih => exact le_trans p.le_nextLine (ih h)
  | case5 p c rest _ _ _ ih =>
    rcases List.mem_cons.mp h with rfl | h
    · exact le_refl x
    · exact le_trans (le_of_lt p.lt_shift_one) (ih h)

theorem lt_cursorAfter_of_mem_occupied {p x : Position} {cs : List Char} (h : x ∈ occupied p cs) :
    x < cursorAfter p cs := by
  fun_induction occupied p cs with
  | case1 => cases h
  | case2 p rest ih => exact ih h
  | case3 p rest hlf ih => rw [cursorAfter]; exact ih h; exact hlf
  | case4 p rest ih => exact ih h
  | case5 p c rest hcrlf hcr hlf ih =>
    rw [cursorAfter]
    rcases List.mem_cons.mp h with rfl | h
    · exact lt_of_lt_of_le x.lt_shift_one (le_cursorAfter _ _)
    · exact ih h
    · exact hcrlf
    · exact hcr
    · exact hlf

/-- No two characters occupy one position, and later ones stand further on. -/
theorem pairwise_occupied (p : Position) (cs : List Char) : (occupied p cs).Pairwise (· < ·) := by
  fun_induction occupied p cs with
  | case1 => exact .nil
  | case2 p rest ih => exact ih
  | case3 p rest _ ih => exact ih
  | case4 p rest ih => exact ih
  | case5 p c rest _ _ _ ih =>
    exact List.pairwise_cons.mpr
      ⟨fun x hx => lt_of_lt_of_le p.lt_shift_one (le_of_mem_occupied hx), ih⟩

/-- Only line ends occupy nothing. -/
theorem occupied_eq_nil_iff {p : Position} {cs : List Char} :
    occupied p cs = [] ↔ ∀ c ∈ cs, c = '\r' ∨ c = '\n' := by
  fun_induction occupied p cs with
  | case1 => simp
  | case2 p rest ih => simp [ih]
  | case3 p rest _ ih => simp [ih]
  | case4 p rest ih => simp [ih]
  | case5 p c rest _ hcr hlf ih =>
    simp only [List.cons_ne_nil, List.mem_cons, forall_eq_or_imp, false_iff, not_and]
    intro h
    exact absurd h (fun h => h.elim hcr hlf)

end Text

/-! ## By leaves -/

namespace Leaf

/-- The occupied positions of leaves read from a cursor on, each with the leaf of its character. -/
def layout : Position → List Leaf → List (Position × Leaf)
  | _, [] => []
  | p, leaf :: rest =>
    (Text.occupied p leaf.text.toList).map (·, leaf) ++
      layout (Text.cursorAfter p leaf.text.toList) rest

/-- The cursor after leaves. -/
def cursorAfter : Position → List Leaf → Position
  | p, [] => p
  | p, leaf :: rest => cursorAfter (Text.cursorAfter p leaf.text.toList) rest

theorem cursorAfter_append (p : Position) (xs ys : List Leaf) :
    cursorAfter p (xs ++ ys) = cursorAfter (cursorAfter p xs) ys := by
  induction xs generalizing p with
  | nil => rfl
  | cons leaf rest ih => exact ih _

theorem layout_append (p : Position) (xs ys : List Leaf) :
    layout p (xs ++ ys) = layout p xs ++ layout (cursorAfter p xs) ys := by
  induction xs generalizing p with
  | nil => rfl
  | cons leaf rest ih => rw [List.cons_append, layout, ih, layout, List.append_assoc, cursorAfter]

theorem le_cursorAfter (p : Position) (leaves : List Leaf) : p ≤ cursorAfter p leaves := by
  induction leaves generalizing p with
  | nil => exact le_refl p
  | cons leaf rest ih => exact le_trans (Text.le_cursorAfter p _) (ih _)

theorem map_layout_cons (p : Position) (leaf : Leaf) (rest : List Leaf) :
    (layout p (leaf :: rest)).map (·.1) =
      Text.occupied p leaf.text.toList ++
        (layout (Text.cursorAfter p leaf.text.toList) rest).map (·.1) := by
  rw [layout, List.map_append, List.map_map]
  simp [Function.comp_def]

theorem mem_layout_cons {p : Position} {leaf : Leaf} {rest : List Leaf} {x : Position × Leaf} :
    x ∈ layout p (leaf :: rest) ↔
      (x.1 ∈ Text.occupied p leaf.text.toList ∧ x.2 = leaf) ∨
        x ∈ layout (Text.cursorAfter p leaf.text.toList) rest := by
  rw [layout, List.mem_append, List.mem_map]
  constructor
  · rintro (⟨y, hy, rfl⟩ | h)
    · exact Or.inl ⟨hy, rfl⟩
    · exact Or.inr h
  · rintro (⟨hy, rfl⟩ | h)
    · exact Or.inl ⟨x.1, hy, rfl⟩
    · exact Or.inr h

theorem leaf_mem_of_mem_layout {p : Position} {leaves : List Leaf} {x : Position × Leaf}
    (h : x ∈ layout p leaves) : x.2 ∈ leaves := by
  induction leaves generalizing p with
  | nil => cases h
  | cons leaf rest ih =>
    rcases mem_layout_cons.mp h with ⟨-, hx⟩ | h
    · rw [hx]
      exact List.mem_cons_self ..
    · exact List.mem_cons_of_mem _ (ih h)

/-- The layout stands from the cursor at its beginning on. -/
theorem le_of_mem_layout {p : Position} {leaves : List Leaf} {x : Position × Leaf}
    (h : x ∈ layout p leaves) : p ≤ x.1 := by
  induction leaves generalizing p with
  | nil => cases h
  | cons leaf rest ih =>
    rcases mem_layout_cons.mp h with ⟨hx, -⟩ | h
    · exact Text.le_of_mem_occupied hx
    · exact le_trans (Text.le_cursorAfter p _) (ih h)

/-- The layout stands in front of the cursor at its end. -/
theorem lt_cursorAfter_of_mem_layout {p : Position} {leaves : List Leaf} {x : Position × Leaf}
    (h : x ∈ layout p leaves) : x.1 < cursorAfter p leaves := by
  induction leaves generalizing p with
  | nil => cases h
  | cons leaf rest ih =>
    rcases mem_layout_cons.mp h with ⟨hx, -⟩ | h
    · exact lt_of_lt_of_le (Text.lt_cursorAfter_of_mem_occupied hx) (le_cursorAfter _ rest)
    · exact ih h

/-- Later characters of the layout stand at greater positions. -/
theorem pairwise_layout (p : Position) (leaves : List Leaf) :
    (layout p leaves).Pairwise (fun x y => x.1 < y.1) := by
  induction leaves generalizing p with
  | nil => exact .nil
  | cons leaf rest ih =>
    refine List.pairwise_append.mpr ⟨?_, ih _, ?_⟩
    · exact List.pairwise_map.mpr (Text.pairwise_occupied p _)
    · intro x hx y hy
      obtain ⟨z, hz, rfl⟩ := List.mem_map.mp hx
      exact lt_of_lt_of_le (Text.lt_cursorAfter_of_mem_occupied hz) (le_of_mem_layout hy)

/-- At most one character stands at a position. -/
theorem eq_of_mem_layout {p : Position} {leaves : List Leaf} {x y : Position × Leaf}
    (hx : x ∈ layout p leaves) (hy : y ∈ layout p leaves) (h : x.1 = y.1) : x = y := by
  have hpairs := pairwise_layout p leaves
  exact List.Pairwise.forall_of_forall_of_flip (R := fun x y => x.1 = y.1 → x = y) (fun _ _ _ => rfl)
    (hpairs.imp fun hlt heq => absurd heq (ne_of_lt hlt))
    (hpairs.imp fun hlt heq => absurd heq.symm (ne_of_lt hlt)) hx hy h

/-- Leaves without a character other than line ends occupy nothing. -/
theorem layout_eq_nil_iff {p : Position} {leaves : List Leaf} :
    layout p leaves = [] ↔ ∀ c ∈ (texts leaves).toList, c = '\r' ∨ c = '\n' := by
  induction leaves generalizing p with
  | nil => simp [layout, texts]
  | cons leaf rest ih =>
    rw [layout, List.append_eq_nil_iff, List.map_eq_nil_iff, Text.occupied_eq_nil_iff, ih, texts,
      String.toList_append, List.forall_mem_append]

end Leaf

/-! ## By runs -/

namespace Run

/-- The positions that runs occupy, read from a cursor on. -/
def occupied : Position → List Run → List Position
  | _, [] => []
  | p, .newline _ :: rest => occupied p.nextLine rest
  | p, .stretch chars :: rest => p.columns chars.length ++ occupied (p.shift chars.length) rest

/-- The cursor after runs. -/
def cursorAfter : Position → List Run → Position
  | p, [] => p
  | p, .newline _ :: rest => cursorAfter p.nextLine rest
  | p, .stretch chars :: rest => cursorAfter (p.shift chars.length) rest

/-- The number of characters of runs. -/
def size : List Run → Nat
  | [] => 0
  | run :: rest => run.chars.length + size rest

theorem occupied_lineEnd (p : Position) (mark : Newline) (runs : List Run) :
    occupied p (.stretch [] :: .newline mark :: runs) = occupied p.nextLine runs := by
  rw [occupied, List.length_nil, Position.shift_zero]
  rfl

theorem cursorAfter_lineEnd (p : Position) (mark : Newline) (runs : List Run) :
    cursorAfter p (.stretch [] :: .newline mark :: runs) = cursorAfter p.nextLine runs := by
  rw [cursorAfter, List.length_nil, Position.shift_zero]
  rfl

theorem occupied_consFirst (p : Position) (c : Char) (runs : List Run) :
    occupied p (consFirst c runs) = p :: occupied (p.shift 1) runs := by
  cases runs with
  | nil => rfl
  | cons run rest =>
    cases run with
    | newline mark => rfl
    | stretch chars =>
      simp only [consFirst, occupied, List.length_cons, Position.columns, List.cons_append,
        Position.shift_shift, Nat.add_comm 1]

theorem cursorAfter_consFirst (p : Position) (c : Char) (runs : List Run) :
    cursorAfter p (consFirst c runs) = cursorAfter (p.shift 1) runs := by
  cases runs with
  | nil => rfl
  | cons run rest =>
    cases run with
    | newline mark => rfl
    | stretch chars =>
      simp only [consFirst, cursorAfter, List.length_cons, Position.shift_shift, Nat.add_comm 1]

theorem size_append (xs ys : List Run) : size (xs ++ ys) = size xs + size ys := by
  induction xs with
  | nil => exact (Nat.zero_add _).symm
  | cons run rest ih => rw [List.cons_append, size, size, ih, Nat.add_assoc]

theorem size_consFirst (c : Char) (runs : List Run) : size (consFirst c runs) = size runs + 1 := by
  cases runs with
  | nil => rfl
  | cons run rest =>
    cases run with
    | newline mark => simp only [consFirst, size, chars, List.length_singleton]; omega
    | stretch chars => simp only [consFirst, size, Run.chars, List.length_cons]; omega

theorem line_le_cursorAfter (p : Position) (runs : List Run) : p.line ≤ (cursorAfter p runs).line := by
  induction runs generalizing p with
  | nil => exact Int.le_refl _
  | cons run rest ih =>
    cases run with
    | newline mark => exact Int.le_trans (Int.le_of_lt (Int.lt_succ p.line)) (ih p.nextLine)
    | stretch chars => exact ih (p.shift chars.length)

theorem line_le_of_mem_occupied {p x : Position} {runs : List Run} (h : x ∈ occupied p runs) :
    p.line ≤ x.line := by
  induction runs generalizing p with
  | nil => cases h
  | cons run rest ih =>
    cases run with
    | newline mark => exact Int.le_trans (Int.le_of_lt (Int.lt_succ p.line)) (ih h)
    | stretch chars =>
      rcases List.mem_append.mp h with h | h
      · exact Int.le_of_eq (Position.mem_columns_iff.mp h).1.symm
      · exact ih (p := p.shift chars.length) h

/-- The runs of a text occupy what its characters do. -/
theorem occupied_cut (p : Position) (cs : List Char) :
    occupied p (Text.cut cs) = Text.occupied p cs := by
  fun_induction Text.occupied p cs with
  | case1 p => rfl
  | case2 p rest ih => rw [Text.cut, occupied_lineEnd, ih]
  | case3 p rest hlf ih =>
    rw [Text.cut, occupied_lineEnd, ih]
    exact hlf
  | case4 p rest ih => rw [Text.cut, occupied_lineEnd, ih]
  | case5 p c rest hcrlf hcr hlf ih =>
    rw [Text.cut, occupied_consFirst, ih]
    · exact hcrlf
    · exact hcr
    · exact hlf

theorem cursorAfter_cut (p : Position) (cs : List Char) :
    cursorAfter p (Text.cut cs) = Text.cursorAfter p cs := by
  fun_induction Text.cursorAfter p cs with
  | case1 p => exact p.shift_zero
  | case2 p rest ih => rw [Text.cut, cursorAfter_lineEnd, ih]
  | case3 p rest hlf ih =>
    rw [Text.cut, cursorAfter_lineEnd, ih]
    exact hlf
  | case4 p rest ih => rw [Text.cut, cursorAfter_lineEnd, ih]
  | case5 p c rest hcrlf hcr hlf ih =>
    rw [Text.cut, cursorAfter_consFirst, ih]
    · exact hcrlf
    · exact hcr
    · exact hlf

theorem size_cut (cs : List Char) : size (Text.cut cs) = cs.length := by
  fun_induction Text.cut cs with
  | case1 => rfl
  | case2 rest ih => simp [size, chars, Newline.chars, ih]; omega
  | case3 rest _ ih => simp [size, chars, Newline.chars, ih]; omega
  | case4 rest ih => simp [size, chars, Newline.chars, ih]; omega
  | case5 c rest _ _ _ ih => rw [size_consFirst, ih, List.length_cons]

theorem size_runs (text : String) : size (Text.runs text) = text.length :=
  (size_cut _).trans String.length_toList

end Run

/-! ## Room for more characters -/

/-- A tree that renders at most `2^63 - 2` characters, so that every cursor in its text has
    coordinates. -/
def Node.Fits (tree : Node) : Prop := tree.render.length < Coordinate.greatest

instance (tree : Node) : Decidable tree.Fits := inferInstanceAs (Decidable (_ < _))

/-- A cursor in the text from which `n` characters can be read without leaving the coordinates. -/
def Position.Room (p : Position) (n : Nat) : Prop :=
  1 ≤ p.line ∧ 1 ≤ p.column ∧ p.line + n ≤ Coordinate.greatest ∧ p.column + n ≤ Coordinate.greatest

namespace Position

theorem Room.mono {p : Position} {m n : Nat} (h : p.Room n) (hmn : m ≤ n) : p.Room m := by
  unfold Room at *
  omega

/-- At the start there is room for fewer characters than there are coordinates. -/
theorem room_start {n : Nat} (h : n < Coordinate.greatest) : start.Room n := by
  unfold Room start
  unfold Coordinate.greatest at *
  simp only
  omega

/-- A count of characters that there is room for is a coordinate. -/
theorem Room.ofCount {p : Position} {k n : Nat} (h : p.Room (k + n)) : Coordinate.ofCount k = k := by
  apply Coordinate.ofCount_eq
  unfold Room at h
  omega

/-- So is a column that there is room for. -/
theorem Room.inRange_column {p : Position} {k n : Nat} (h : p.Room (k + n)) :
    Coordinate.InRange (p.column + k) := by
  unfold Room at h
  unfold Coordinate.InRange Coordinate.least
  omega

/-- One character makes room for a line end. -/
theorem Room.nextLine {p : Position} {n : Nat} (h : p.Room (1 + n)) :
    p.advanceLine = .ok p.nextLine ∧ p.nextLine.Room n := by
  unfold Room Coordinate.greatest at h
  refine ⟨?_, ?_⟩
  · have hrange : Coordinate.InRange (p.line + 1) := by
      unfold Coordinate.InRange Coordinate.least Coordinate.greatest
      omega
    rw [advanceLine, Coordinate.add, Coordinate.settle_eq_ok hrange]
    rfl
  · unfold Room Position.nextLine Coordinate.greatest
    simp only
    omega

theorem Room.shift {p : Position} {k n : Nat} (h : p.Room (k + n)) :
    p.advanceColumns (Coordinate.ofCount k) = .ok (p.shift k) ∧ (p.shift k).Room n := by
  refine ⟨?_, ?_⟩
  · rw [advanceColumns, h.ofCount, Coordinate.add, Coordinate.settle_eq_ok h.inRange_column]
    rfl
  · unfold Room Position.shift at *
    simp only
    omega

theorem Room.of_newline {p : Position} {mark : Newline} {rest : List Run} {n : Nat}
    (h : p.Room (Run.size (.newline mark :: rest) + n)) : p.Room (1 + (Run.size rest + n)) := by
  apply h.mono
  cases mark <;> simp only [Run.size, Run.chars, Newline.chars, List.length_cons, List.length_nil] <;>
    omega

theorem Room.of_stretch {p : Position} {chars : List Char} {rest : List Run} {n : Nat}
    (h : p.Room (Run.size (.stretch chars :: rest) + n)) :
    p.Room (chars.length + (Run.size rest + n)) := by
  apply h.mono
  rw [Run.size, Run.chars]
  omega

/-- Reading a text uses up as much room as it has characters. -/
theorem Room.cursorAfter {p : Position} {cs : List Char} {n : Nat} (h : p.Room (cs.length + n)) :
    (Text.cursorAfter p cs).Room n := by
  fun_induction Text.cursorAfter p cs with
  | case1 p => exact h.mono (Nat.le_add_left n _)
  | case2 p rest ih =>
    have hroom : p.Room (1 + (rest.length + n)) := h.mono (by simp only [List.length_cons]; omega)
    exact ih hroom.nextLine.2
  | case3 p rest _ ih =>
    have hroom : p.Room (1 + (rest.length + n)) := h.mono (by simp only [List.length_cons]; omega)
    exact ih hroom.nextLine.2
  | case4 p rest ih =>
    have hroom : p.Room (1 + (rest.length + n)) := h.mono (by simp only [List.length_cons]; omega)
    exact ih hroom.nextLine.2
  | case5 p c rest _ _ _ ih =>
    have hroom : p.Room (1 + (rest.length + n)) := h.mono (by simp only [List.length_cons]; omega)
    exact ih hroom.shift.2

end Position

/-- The leaves of a tree that fits can be read from the start on. -/
theorem Node.Fits.room {tree : Node} (h : tree.Fits) :
    Position.start.Room (Leaf.texts tree.leaves).length := by
  rw [Node.leaves, Node.texts_leavesFrom]
  exact Position.room_start h

end LosslessTree
