import LosslessTree.Proofs.BoxLookup
import LosslessTree.Proofs.PositionLookup

/-!
# `Proofs.Ancestors` — the nodes whose boxes contain a position

The node at a position and the box of a path are found by two walks with nothing in common but the tree.
Through the layout they meet: the first finds the owner of the character at a position, the second
gives the extent of the leaves of a node. Cut at the leaves of a node, the layout has three parts, and
the parts in front and behind stand outside the extent of the part between (`Leaf.contains_extent_iff`). So
the extent of a node contains an occupied position exactly when the character there belongs to a leaf of
the node; and the leaves of a node are those whose owner the path of the node leads to or through.

A node without a character other than line ends occupies nothing, and still has a box, of the one
position where the cursor was. Such a box may contain a character of a neighbour. This is why blank nodes
are left out.

## Contents
- **Extents.** `Leaf.exists_bottomRight`, `Leaf.contains_extent_iff`.
- **Owners.** `Node.Inked`, `Node.prefix_owner`, `Node.contains_iff_prefix`.
- **Ancestors** of the node at a position.
-/

namespace LosslessTree

/-! ## Extents -/

namespace Leaf

variable {p target : Position} {leaves before inner behind : List Leaf} {leaf : Leaf}

/-- The extent of leaves that occupy anything ends at the greatest position that they occupy. -/
theorem exists_bottomRight (h : layout p leaves ≠ []) :
    ∃ y ∈ layout p leaves, (extent p leaves).bottomRight = y.1 ∧ ∀ x ∈ layout p leaves, x.1 ≤ y.1 := by
  have hpairs := pairwise_layout p leaves
  unfold extent
  rcases List.eq_nil_or_concat (layout p leaves) with hnil | ⟨init, y, hlast⟩
  · exact absurd hnil h
  · rw [hlast, List.concat_eq_append] at hpairs ⊢
    have hsmaller := (List.pairwise_append.mp hpairs).2.2
    refine ⟨y, by simp, by simp, ?_⟩
    intro x hx
    rcases List.mem_append.mp hx with hx | hx
    · exact le_of_lt (hsmaller x hx y (List.mem_singleton_self y))
    · rw [List.mem_singleton.mp hx]

/-- The extent of leaves contains the positions that they occupy. -/
theorem contains_extent_of_mem (h : (target, leaf) ∈ layout p leaves) :
    (extent p leaves).contains target = true := by
  obtain ⟨y, -, hy, hgreatest⟩ := exists_bottomRight (List.ne_nil_of_mem h)
  rw [BoundingBox.contains_iff, hy]
  exact ⟨le_of_mem_layout h, hgreatest _ h⟩

/-- **Extents keep apart.** Of the characters in a layout, the extent of the leaves between contains those
    that are between. -/
theorem contains_extent_iff
    (hm : (target, leaf) ∈ layout p (before ++ (inner ++ behind)))
    (hne : layout (cursorAfter p before) inner ≠ []) :
    (extent (cursorAfter p before) inner).contains target = true ↔
      (target, leaf) ∈ layout (cursorAfter p before) inner := by
  refine ⟨?_, contains_extent_of_mem⟩
  intro hcontains
  obtain ⟨hfrom, hto⟩ := BoundingBox.contains_iff.mp hcontains
  rw [layout_append, layout_append, List.mem_append, List.mem_append] at hm
  rcases hm with hm | hm | hm
  · -- in front: the position is before the cursor at which the extent begins
    exact absurd hfrom (not_le_of_gt (lt_cursorAfter_of_mem_layout hm))
  · exact hm
  · -- behind: the position is not before the cursor after the leaves between
    obtain ⟨y, hin, hy, -⟩ := exists_bottomRight hne
    have hlt : y.1 < target :=
      lt_of_lt_of_le (lt_cursorAfter_of_mem_layout hin) (le_of_mem_layout hm)
    exact absurd (hy ▸ hto) (not_le_of_gt hlt)

end Leaf

/-! ## Owners -/

namespace Node

variable {tree n : Node} {path : Path}

/-- The node renders a character other than line ends. -/
def Inked (n : Node) : Prop := ∃ c ∈ n.render.toList, c ≠ '\r' ∧ c ≠ '\n'

instance (n : Node) : Decidable n.Inked :=
  List.decidableBEx (fun c => c ≠ '\r' ∧ c ≠ '\n') n.render.toList

/-- The nodes that occupy anything. -/
theorem inked_iff (p : Position) : n.Inked ↔ Leaf.layout p (n.leavesFrom path) ≠ [] := by
  rw [Ne, Leaf.layout_eq_nil_iff, Node.texts_leavesFrom]
  simp only [Inked, Classical.not_forall, not_or, exists_prop]

/-- The path of a node leads to or through the owners of its leaves. -/
theorem prefix_owner {leaf : Leaf} (hd : n.Distinct) (h : leaf ∈ n.leavesFrom path) :
    path <+: leaf.owner := by
  rw [← Node.filterMap_trailFrom PathEvent.picks_entered?] at h
  obtain ⟨e, he, hentered⟩ := List.mem_filterMap.mp h
  obtain ⟨q, -, hpath, -⟩ := Node.reach_of_mem_trailFrom n hd he
  rw [PathEvent.owner_of_entered? hentered, hpath]
  exact List.prefix_append path q

/-- A path leads somewhere if a longer one does. -/
theorem exists_reach_of_prefix {q : Path} (h : tree.reach path = some n) (hq : q <+: path) :
    ∃ m, tree.reach q = some m := by
  obtain ⟨rest, rfl⟩ := hq
  rw [Node.reach_append] at h
  obtain ⟨m, hm, -⟩ := Option.bind_eq_some_iff.mp h
  exact ⟨m, hm⟩

/-- A character stands among those of a node exactly when the path of the node leads to or through its
    owner. -/
theorem mem_layout_iff_prefix {target : Position} {leaf : Leaf} (hd : tree.Distinct)
    (h : tree.reach path = some n) (hm : (target, leaf) ∈ Leaf.layout Position.start tree.leaves) :
    (target, leaf) ∈ Leaf.layout
        (Leaf.cursorAfter Position.start (tree.leavesBefore Path.root path)) (n.leavesFrom path) ↔
      path <+: leaf.owner := by
  obtain ⟨behind, hsplit, howners⟩ := Node.leaves_split hd h
  constructor
  · intro hin
    exact Node.prefix_owner (hd.reach h) (Leaf.leaf_mem_of_mem_layout hin)
  · intro hp
    rw [hsplit, Leaf.layout_append, Leaf.layout_append, List.mem_append, List.mem_append] at hm
    rcases hm with hm | hm | hm
    · exact absurd hp (howners leaf (List.mem_append_left _ (Leaf.leaf_mem_of_mem_layout hm)))
    · exact hm
    · exact absurd hp (howners leaf (List.mem_append_right _ (Leaf.leaf_mem_of_mem_layout hm)))

/-- The box of an inked node contains an occupied position exactly when the path of the node leads to or
    through the owner of the character there. -/
theorem contains_iff_prefix {target : Position} {leaf : Leaf} (hd : tree.Distinct)
    (h : tree.reach path = some n) (hinked : n.Inked)
    (hm : (target, leaf) ∈ Leaf.layout Position.start tree.leaves) :
    (Leaf.extent (Leaf.cursorAfter Position.start (tree.leavesBefore Path.root path))
        (n.leavesFrom path)).contains target = true ↔ path <+: leaf.owner := by
  obtain ⟨behind, hsplit, -⟩ := Node.leaves_split hd h
  rw [← Node.mem_layout_iff_prefix hd h hm]
  rw [hsplit] at hm
  exact Leaf.contains_extent_iff hm ((Node.inked_iff _).mp hinked)

/-! ## Ancestors -/

/-- **The ancestors of the node at a position.** Where a path is found at a position, the paths that lead to
    or through the node found are those of the inked nodes whose box contains the position. So the box
    of the node found does, and the box of no inked node off the way to it. -/
theorem prefix_iff_box_contains (tree : Node) (hd : tree.Distinct) (hfits : tree.Fits)
    (target : Position) (found : Path) (h : tree.pathAt target = .ok (some found)) :
    (∀ q, q <+: found ↔
      ∃ n box, tree.descend q = .ok n ∧ n.Inked ∧ tree.boxAt q = .ok box ∧
        box.contains target = true) ∧
    (∃ box, tree.boxAt found = .ok box ∧ box.contains target = true) ∧
    ∀ q n box, ¬ q <+: found → tree.descend q = .ok n → n.Inked → tree.boxAt q = .ok box →
      box.contains target = false := by
  obtain ⟨leaf, hm, rfl⟩ := (Node.pathAt_eq_some_iff hfits).mp h
  obtain ⟨owner, howner, -⟩ := Node.reach_owner hd (Leaf.leaf_mem_of_mem_layout hm)
  have hancestor : ∀ q, q <+: leaf.owner →
      ∃ n box, tree.descend q = .ok n ∧ n.Inked ∧ tree.boxAt q = .ok box ∧
        box.contains target = true := by
    intro q hq
    obtain ⟨n, hreach⟩ := Node.exists_reach_of_prefix howner hq
    have hin := (Node.mem_layout_iff_prefix hd hreach hm).mpr hq
    exact ⟨n, _, Node.descend_eq_ok_iff.mpr hreach, (Node.inked_iff _).mpr (List.ne_nil_of_mem hin),
      Node.boxAt_of_reach hd hfits hreach, Leaf.contains_extent_of_mem hin⟩
  have hcontains : ∀ q n box, tree.descend q = .ok n → n.Inked → tree.boxAt q = .ok box →
      (box.contains target = true ↔ q <+: leaf.owner) := by
    intro q n box hn hinked hbox
    have hreach := Node.descend_eq_ok_iff.mp hn
    rw [Node.boxAt_of_reach hd hfits hreach] at hbox
    cases hbox
    exact Node.contains_iff_prefix hd hreach hinked hm
  refine ⟨?_, ?_, ?_⟩
  · intro q
    refine ⟨hancestor q, ?_⟩
    rintro ⟨n, box, hn, hinked, hbox, hin⟩
    exact (hcontains q n box hn hinked hbox).mp hin
  · obtain ⟨n, box, -, -, hbox, hin⟩ := hancestor leaf.owner (List.prefix_refl _)
    exact ⟨box, hbox, hin⟩
  · intro q n box hq hn hinked hbox
    apply Bool.eq_false_iff.mpr
    intro hin
    exact hq ((hcontains q n box hn hinked hbox).mp hin)

/-- At the closing bracket of a call the root is found. Its box contains the position, and the box of the
    arguments ends in front of it. -/
theorem prefix_iff_box_contains_call :
    let tree : Node := .composite "call"
      [.field "name" (.constant "f"), .text "(\n", .field "args" (.list [.constant "1"]), .text ")"]
    tree.pathAt ⟨2, 2⟩ = .ok (some []) ∧
      (∃ box, tree.boxAt [] = .ok box ∧ box.contains ⟨2, 2⟩ = true) ∧
      ∃ box, tree.boxAt [.name "args"] = .ok box ∧ box.contains ⟨2, 2⟩ = false := by
  intro tree
  have hd : tree.Distinct := by decide
  have hfits : tree.Fits := by decide
  have hfound : tree.pathAt ⟨2, 2⟩ = .ok (some []) := by rfl
  have h := prefix_iff_box_contains tree hd hfits ⟨2, 2⟩ [] hfound
  refine ⟨hfound, h.2.1, ⟨_, rfl, ?_⟩⟩
  exact h.2.2 [.name "args"] _ _ (by decide) rfl (by decide) rfl

end Node

end LosslessTree
