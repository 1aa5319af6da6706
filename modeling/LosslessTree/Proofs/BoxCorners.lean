import LosslessTree.Proofs.BoxOrder

/-!
# `Proofs.BoxCorners` — what stands at the corners of a box

A box is no larger than the text of its node needs. Its lower corner is the position of the last character
of the node, so a search there finds the node or something inside it. Its upper corner is where the
cursor was when the node began. If the node begins with a character, that character stands there; if it
begins with a line end, nothing does, neither of the node nor of what is around it: all that comes before
stands in front of the cursor, and all that comes after on a later line.

From the one corner to the other the cursor goes down one line for each line end of the node that a
character follows. Line ends behind the last character do not count. They are found leaf by leaf, in the
runs into which each leaf is cut.

## Contents
- **Runs.** `Run.isInk`, `Run.lineEndsBeforeInk`, and the line of the last position that runs occupy.
- **First characters.** `Leaf.exists_mem_layout_of_head`, `Leaf.nextLine_le_of_head`.
- **`Node.box_corners_tight`**.
-/

namespace LosslessTree

/-! ## Line ends before the last character -/

namespace Run

/-- Whether a run has a character other than line ends. -/
def isInk : Run → Bool
  | .stretch chars => !chars.isEmpty
  | .newline _ => false

/-- The number of line ends in front of the last character: those with a character behind them. -/
def lineEndsBeforeInk : List Run → Nat
  | [] => 0
  | .newline _ :: rest => (if rest.any isInk then 1 else 0) + lineEndsBeforeInk rest
  | .stretch _ :: rest => lineEndsBeforeInk rest

theorem occupied_append (p : Position) (xs ys : List Run) :
    occupied p (xs ++ ys) = occupied p xs ++ occupied (cursorAfter p xs) ys := by
  induction xs generalizing p with
  | nil => rfl
  | cons run rest ih =>
    cases run with
    | newline mark => exact ih p.nextLine
    | stretch chars => simp only [List.cons_append, occupied, cursorAfter, ih, List.append_assoc]

/-- Runs occupy nothing if none has a character. -/
theorem occupied_eq_nil_iff {p : Position} {runs : List Run} :
    occupied p runs = [] ↔ runs.any isInk = false := by
  induction runs generalizing p with
  | nil => simp [occupied]
  | cons run rest ih =>
    cases run with
    | newline mark => simp only [occupied, ih, List.any_cons, isInk, Bool.false_or]
    | stretch chars =>
      simp only [occupied, List.append_eq_nil_iff, ih, List.any_cons, isInk, Bool.or_eq_false_iff]
      cases chars <;> simp [Position.columns]

theorem lineEndsBeforeInk_of_blank {runs : List Run} (h : runs.any isInk = false) :
    lineEndsBeforeInk runs = 0 := by
  induction runs with
  | nil => rfl
  | cons run rest ih =>
    rw [List.any_cons, Bool.or_eq_false_iff] at h
    cases run with
    | newline mark => simp [lineEndsBeforeInk, h.2, ih h.2]
    | stretch chars => exact ih h.2

/-- The last position that runs occupy is one line further down for each line end in front of it. -/
theorem line_of_getLast?_occupied {p x : Position} {runs : List Run}
    (h : (occupied p runs).getLast? = some x) : x.line = p.line + lineEndsBeforeInk runs := by
  induction runs generalizing p with
  | nil => simp [occupied] at h
  | cons run rest ih =>
    cases run with
    | newline mark =>
      rw [occupied] at h
      have hink : rest.any isInk = true := by
        rw [← Bool.not_eq_false, ← occupied_eq_nil_iff (p := p.nextLine)]
        intro hnil
        simp [hnil] at h
      have hline := ih h
      simp only [lineEndsBeforeInk, hink, if_true]
      simp only [Position.nextLine] at hline
      omega
    | stretch chars =>
      rw [occupied, List.getLast?_append] at h
      rw [lineEndsBeforeInk]
      cases hlast : (occupied (p.shift chars.length) rest).getLast? with
      | some y =>
        -- a later run has the last character
        rw [hlast, Option.some_or] at h
        cases h
        exact ih (p := p.shift chars.length) hlast
      | none =>
        -- this stretch has it, and the line ends behind do not count
        rw [hlast, Option.none_or] at h
        rw [lineEndsBeforeInk_of_blank (occupied_eq_nil_iff.mp (List.getLast?_eq_none_iff.mp hlast))]
        have hx := (Position.mem_columns_iff.mp (List.mem_of_getLast? h)).1
        omega

end Run

/-! ## First characters -/

namespace Text

/-- A character other than line ends stands at the cursor. -/
theorem mem_occupied_cons {c : Char} (hcr : c ≠ '\r') (hlf : c ≠ '\n') (p : Position) (cs : List Char) :
    p ∈ occupied p (c :: cs) := by
  rw [occupied]
  · exact List.mem_cons_self
  · intro rest hc
    exact absurd hc hcr
  · exact hcr
  · exact hlf

/-- Behind a line end the text stands on later lines. -/
theorem nextLine_le_of_lineEnd {c : Char} (h : c = '\r' ∨ c = '\n') (p : Position) (cs : List Char) :
    p.nextLine ≤ cursorAfter p (c :: cs) ∧ ∀ x ∈ occupied p (c :: cs), p.nextLine ≤ x := by
  obtain ⟨rest, hcursor, hplaces⟩ : ∃ rest, cursorAfter p (c :: cs) = cursorAfter p.nextLine rest ∧
      occupied p (c :: cs) = occupied p.nextLine rest := by
    rcases h with rfl | rfl
    · by_cases hpair : ∃ rest, cs = '\n' :: rest
      · obtain ⟨rest, rfl⟩ := hpair
        exact ⟨rest, rfl, rfl⟩
      · refine ⟨cs, ?_, ?_⟩
        · rw [cursorAfter]
          intro rest hrest
          exact hpair ⟨rest, hrest⟩
        · rw [occupied]
          intro rest hrest
          exact hpair ⟨rest, hrest⟩
    · exact ⟨cs, rfl, rfl⟩
  rw [hcursor, hplaces]
  exact ⟨le_cursorAfter _ _, fun x hx => le_of_mem_occupied hx⟩

end Text

namespace Leaf

/-- The runs of leaves, each cut on its own. -/
def runs (leaves : List Leaf) : List Run := leaves.flatMap fun leaf => Text.runs leaf.text

/-- The runs of leaves occupy what the leaves do. -/
theorem occupied_runs (p : Position) (leaves : List Leaf) :
    Run.occupied p (runs leaves) = (layout p leaves).map (·.1) := by
  induction leaves generalizing p with
  | nil => rfl
  | cons leaf rest ih =>
    have hcons : runs (leaf :: rest) = Text.runs leaf.text ++ runs rest := rfl
    rw [hcons, Run.occupied_append, ih, map_layout_cons, Text.runs, Run.occupied_cut,
      Run.cursorAfter_cut]

/-- An extent has one line more than there are line ends in front of the last character. -/
theorem line_bottomRight {p : Position} {leaves : List Leaf} (h : layout p leaves ≠ []) :
    (extent p leaves).bottomRight.line = p.line + Run.lineEndsBeforeInk (runs leaves) := by
  apply Run.line_of_getLast?_occupied
  unfold extent
  rw [occupied_runs]
  cases hlast : ((layout p leaves).map (·.1)).getLast? with
  | none => exact absurd (List.map_eq_nil_iff.mp (List.getLast?_eq_none_iff.mp hlast)) h
  | some x => rfl

/-- If the text of leaves begins with a character other than line ends, it stands at the cursor. -/
theorem exists_mem_layout_of_head {p : Position} {leaves : List Leaf} {c : Char}
    (hc : (texts leaves).toList.head? = some c) (hcr : c ≠ '\r') (hlf : c ≠ '\n') :
    ∃ leaf, (p, leaf) ∈ layout p leaves := by
  induction leaves with
  | nil => simp [texts] at hc
  | cons leaf rest ih =>
    rw [texts, String.toList_append] at hc
    cases htext : leaf.text.toList with
    | nil =>
      rw [htext] at hc
      obtain ⟨other, hother⟩ := ih hc
      refine ⟨other, mem_layout_cons.mpr (Or.inr ?_)⟩
      rw [htext]
      exact hother
    | cons first cs =>
      rw [htext] at hc
      obtain rfl : first = c := by simpa using hc
      refine ⟨leaf, mem_layout_cons.mpr (Or.inl ⟨?_, rfl⟩)⟩
      rw [htext]
      exact Text.mem_occupied_cons hcr hlf p cs

/-- If it begins with a line end, all of it stands on later lines. -/
theorem nextLine_le_of_head {p : Position} {leaves : List Leaf} {c : Char}
    (hc : (texts leaves).toList.head? = some c) (h : c = '\r' ∨ c = '\n') :
    p.nextLine ≤ cursorAfter p leaves ∧ ∀ x ∈ layout p leaves, p.nextLine ≤ x.1 := by
  induction leaves with
  | nil => simp [texts] at hc
  | cons leaf rest ih =>
    rw [texts, String.toList_append] at hc
    simp only [cursorAfter, mem_layout_cons]
    cases htext : leaf.text.toList with
    | nil =>
      -- an empty leaf neither moves the cursor nor occupies anything
      rw [htext] at hc
      obtain ⟨hcursor, hplaces⟩ := ih hc
      refine ⟨hcursor, ?_⟩
      rintro x (⟨hx, -⟩ | hx)
      · cases hx
      · exact hplaces x hx
    | cons first cs =>
      rw [htext] at hc
      obtain rfl : first = c := by simpa using hc
      obtain ⟨hcursor, hplaces⟩ := Text.nextLine_le_of_lineEnd h p cs
      refine ⟨le_trans hcursor (le_cursorAfter _ _), ?_⟩
      rintro x (⟨hx, -⟩ | hx)
      · exact hplaces x.1 hx
      · exact le_trans hcursor (le_of_mem_layout hx)

end Leaf

/-! ## Corners -/

namespace Node

variable {tree n : Node} {path : Path}

/-- At a character of a node, a search finds the node or something inside it. -/
theorem exists_pathAt_inside (hd : tree.Distinct) (hfits : tree.Fits) (h : tree.reach path = some n)
    {x : Position × Leaf} (hx : x ∈ Leaf.layout (tree.origin path) (n.leavesFrom path)) :
    ∃ q, tree.pathAt x.1 = .ok (some q) ∧ path <+: q := by
  obtain ⟨behind, hsplit, -⟩ := Node.leaves_split hd h
  have hin : x ∈ Leaf.layout Position.start tree.leaves := by
    rw [hsplit, Leaf.layout_append, Leaf.layout_append]
    exact List.mem_append_right _ (List.mem_append_left _ hx)
  refine ⟨x.2.owner, (Node.pathAt_eq_some_iff hfits).mpr ⟨x.2, hin, rfl⟩, ?_⟩
  exact Node.prefix_owner (hd.reach h) (Leaf.leaf_mem_of_mem_layout hx)

/-- Where a node begins with a line end, a search finds nothing. -/
theorem pathAt_origin_of_lineEnd (hd : tree.Distinct) (hfits : tree.Fits) (h : tree.reach path = some n)
    {c : Char} (hc : n.render.toList.head? = some c) (hend : c = '\r' ∨ c = '\n') :
    tree.pathAt (tree.origin path) = .ok none := by
  obtain ⟨behind, hsplit, -⟩ := Node.leaves_split hd h
  rw [← Node.texts_leavesFrom path] at hc
  obtain ⟨hcursor, hplaces⟩ := Leaf.nextLine_le_of_head (p := tree.origin path) hc hend
  have hlater : tree.origin path < (tree.origin path).nextLine := Or.inl (Int.lt_succ _)
  apply Node.pathAt_eq_none_of_free hfits
  intro leaf hm
  rw [hsplit, Leaf.layout_append, Leaf.layout_append, List.mem_append, List.mem_append] at hm
  rcases hm with hm | hm | hm
  · exact lt_irrefl _ (Leaf.lt_cursorAfter_of_mem_layout hm)
  · exact not_le_of_gt hlater (hplaces _ hm)
  · exact not_le_of_gt hlater (le_trans hcursor (Leaf.le_of_mem_layout hm))

/-- **The corners of a box are tight.** Every node that a path leads to has a box. If the node renders a
    character other than line ends, a search at the lower corner finds the node or something inside it, and
    the lines of the box can be counted: one, and one more for each line end in front of the last
    character. A search at the upper corner does so too if the text of the node begins with such a
    character, and finds nothing if it begins with a line end. If the node renders no such character, the
    two corners are the same. -/
theorem box_corners_tight (tree n : Node) (path : Path) (hd : tree.Distinct) (hfits : tree.Fits)
    (h : tree.descend path = .ok n) :
    ∃ box : BoundingBox, tree.boxAt path = .ok box ∧
      (n.Inked →
        (∃ q, tree.pathAt box.bottomRight = .ok (some q) ∧ path <+: q) ∧
        box.lineSpan = .ok (1 + Run.lineEndsBeforeInk (Leaf.runs (n.leavesFrom path)))) ∧
      (∀ c, n.render.toList.head? = some c →
        (c ≠ '\r' ∧ c ≠ '\n' → ∃ q, tree.pathAt box.topLeft = .ok (some q) ∧ path <+: q) ∧
        (c = '\r' ∨ c = '\n' → tree.pathAt box.topLeft = .ok none)) ∧
      (¬ n.Inked → box.topLeft = box.bottomRight) := by
  have hreach := Node.descend_eq_ok_iff.mp h
  refine ⟨_, Node.boxAt_of_reach hd hfits hreach, ?_, ?_, ?_⟩
  · intro hinked
    have hlayout : Leaf.layout (tree.origin path) (n.leavesFrom path) ≠ [] :=
      (Node.inked_iff _).mp hinked
    refine ⟨?_, ?_⟩
    · obtain ⟨y, hy, hlast, -⟩ := Leaf.exists_bottomRight hlayout
      unfold origin at hlast
      rw [hlast]
      exact exists_pathAt_inside hd hfits hreach hy
    · obtain ⟨hbegin, hend⟩ := Leaf.room_extent (room_origin hd hfits hreach)
      have hline := Leaf.line_bottomRight hlayout
      refine (BoundingBox.lineSpan_eq_ok hbegin hend).trans ?_
      rw [hline]
      congr 1
      simp only [Leaf.extent]
      omega
  · intro c hc
    refine ⟨?_, pathAt_origin_of_lineEnd hd hfits hreach hc⟩
    rintro ⟨hcr, hlf⟩
    rw [← Node.texts_leavesFrom path] at hc
    obtain ⟨leaf, hleaf⟩ := Leaf.exists_mem_layout_of_head (p := tree.origin path) hc hcr hlf
    obtain ⟨q, hq, hinside⟩ := exists_pathAt_inside hd hfits hreach hleaf
    exact ⟨q, hq, hinside⟩
  · intro hblank
    have hnil : Leaf.layout (tree.origin path) (n.leavesFrom path) = [] := by
      apply Classical.byContradiction
      intro hne
      exact hblank ((Node.inked_iff _).mpr hne)
    unfold origin at hnil
    simp [Leaf.extent, hnil]

/-- A field between line ends: its box begins on the empty line where the field does, at nothing, and ends
    three lines further down, in front of the last line end. The two line ends between its characters are
    in different leaves and count twice. -/
theorem box_corners_tight_lines :
    let tree : Node :=
      .composite "pair" [.text "\n", .field "a" (.list [.constant "\nb\r", .constant "\nc\n"])]
    ∃ box : BoundingBox, tree.boxAt [.name "a"] = .ok box ∧ box.lineSpan = .ok 4 ∧
      (∃ q, tree.pathAt box.bottomRight = .ok (some q) ∧ [.name "a"] <+: q) ∧
      tree.pathAt box.topLeft = .ok none := by
  intro tree
  have hd : tree.Distinct := by decide
  have hfits : tree.Fits := by decide
  obtain ⟨box, hbox, hinked, hfirst, -⟩ :=
    box_corners_tight tree (.list [.constant "\nb\r", .constant "\nc\n"]) [.name "a"] hd hfits rfl
  obtain ⟨hlast, hspan⟩ := hinked (by decide)
  obtain ⟨-, hnothing⟩ := hfirst '\n' (by decide)
  refine ⟨box, hbox, ?_, hlast, hnothing (Or.inr rfl)⟩
  rw [hspan]
  rfl

end Node

end LosslessTree
