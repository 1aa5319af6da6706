import LosslessTree.Proofs.Ancestors

/-!
# `Proofs.Relocation` — a node in its tree and on its own

A node can be resolved in two ways: as a part of a tree, by paths that begin with its own, and as a tree in
its own right, from line 1, column 1. Both give the same picture, moved to where the node begins. The first
line of the node goes on where the text in front of it has stopped, so its columns are moved; all other
lines begin at column 1 in either case and only their numbers change.

Reading commutes with this move (`Text.occupied_relocate`), since a step along a line and a step to the next
one do. For leaves the owners are put under the path of the node (`Leaf.layout_relocate`). What the walk of the
tree reads between entering and leaving the node are the leaves of the node under its path
(`Node.leavesFrom_under`), and in front of a node inside it the leaves in front of both
(`Node.leavesBefore_append`); the rest is that boxes and positions are read off the layout.

## Contents
- **`Position.relocate`**, `BoundingBox.relocate`.
- **Text and leaves.** `Leaf.under`, `Leaf.layout_relocate`, `Leaf.cursorAfter_relocate`,
  `Leaf.extent_relocate`.
- **Nodes.** `Node.leavesFrom_under`, `Node.leavesBefore_append`, `Node.Fits.reach`.
- **`Node.resolves_relocated`**, both resolvers in the tree and on the node.
-/

namespace LosslessTree

/-! ## Moving positions -/

namespace Position

/-- Where the position `x` of a text stands if the text begins at `t`. -/
def relocate (t x : Position) : Position :=
  if x.line = 1 then ⟨t.line, t.column + x.column - 1⟩ else ⟨t.line + x.line - 1, x.column⟩

theorem relocate_start (t : Position) : t.relocate start = t := by
  unfold relocate start
  rw [if_pos rfl]
  cases t
  simp

theorem relocate_shift (t x : Position) (n : Nat) :
    t.relocate (x.shift n) = (t.relocate x).shift n := by
  unfold relocate shift
  split
  · simp only [Position.mk.injEq, true_and]
    omega
  · rfl

theorem line_relocate (t x : Position) : (t.relocate x).line = t.line + x.line - 1 := by
  unfold relocate
  split
  · simp only
    omega
  · rfl

/-- From line 1 on, a line end comes to the same line before and after the move. -/
theorem relocate_nextLine (t : Position) {x : Position} (h : 1 ≤ x.line) :
    t.relocate x.nextLine = (t.relocate x).nextLine := by
  have hnext : ¬ x.line + 1 = 1 := by omega
  simp only [nextLine, line_relocate]
  rw [relocate, if_neg hnext]
  simp only [Position.mk.injEq, and_true]
  omega

theorem one_le_nextLine {x : Position} (h : 1 ≤ x.line) : 1 ≤ x.nextLine.line :=
  Int.le_trans h (line_le_of_le x.le_nextLine)

theorem relocate_injective {t x y : Position} (h : t.relocate x = t.relocate y) : x = y := by
  have hline : x.line = y.line := by
    have hsame := congrArg Position.line h
    rw [line_relocate, line_relocate] at hsame
    omega
  have hcolumn : x.column = y.column := by
    have hsame := congrArg Position.column h
    unfold relocate at hsame
    rw [hline] at hsame
    split at hsame
    · simp only at hsame
      omega
    · exact hsame
  cases x
  cases y
  simp_all

end Position

/-- Where a box of a text stands if the text begins at `t`. -/
def BoundingBox.relocate (t : Position) (b : BoundingBox) : BoundingBox :=
  ⟨t.relocate b.topLeft, t.relocate b.bottomRight⟩

/-! ## Moving text -/

namespace Text

/-- A text that is read from a moved cursor stands where it was moved to. -/
theorem occupied_relocate (t : Position) {p : Position} (h : 1 ≤ p.line) (cs : List Char) :
    occupied (t.relocate p) cs = (occupied p cs).map t.relocate := by
  fun_induction occupied p cs with
  | case1 p => rfl
  | case2 p rest ih =>
    rw [occupied, ← Position.relocate_nextLine t h]
    exact ih (Position.one_le_nextLine h)
  | case3 p rest hlf ih =>
    rw [occupied, ← Position.relocate_nextLine t h]
    · exact ih (Position.one_le_nextLine h)
    · exact hlf
  | case4 p rest ih =>
    rw [occupied, ← Position.relocate_nextLine t h]
    exact ih (Position.one_le_nextLine h)
  | case5 p c rest hcrlf hcr hlf ih =>
    rw [occupied, ← Position.relocate_shift, List.map_cons]
    · exact congrArg (t.relocate p :: ·) (ih h)
    · exact hcrlf
    · exact hcr
    · exact hlf

theorem cursorAfter_relocate (t : Position) {p : Position} (h : 1 ≤ p.line) (cs : List Char) :
    cursorAfter (t.relocate p) cs = t.relocate (cursorAfter p cs) := by
  fun_induction cursorAfter p cs with
  | case1 p => rfl
  | case2 p rest ih =>
    rw [cursorAfter, ← Position.relocate_nextLine t h]
    exact ih (Position.one_le_nextLine h)
  | case3 p rest hlf ih =>
    rw [cursorAfter, ← Position.relocate_nextLine t h]
    · exact ih (Position.one_le_nextLine h)
    · exact hlf
  | case4 p rest ih =>
    rw [cursorAfter, ← Position.relocate_nextLine t h]
    exact ih (Position.one_le_nextLine h)
  | case5 p c rest hcrlf hcr hlf ih =>
    rw [cursorAfter, ← Position.relocate_shift]
    · exact ih h
    · exact hcrlf
    · exact hcr
    · exact hlf

end Text

/-! ## Moving leaves -/

namespace Leaf

/-- The leaf of a tree as a leaf of a tree that holds it at `path`. -/
def under (path : Path) (leaf : Leaf) : Leaf := ⟨path ++ leaf.owner, leaf.text⟩

variable {p : Position}

theorem cursorAfter_relocate (t : Position) (path : Path) (h : 1 ≤ p.line) (leaves : List Leaf) :
    cursorAfter (t.relocate p) (leaves.map (under path)) = t.relocate (cursorAfter p leaves) := by
  induction leaves generalizing p with
  | nil => rfl
  | cons leaf rest ih =>
    have hline := Position.line_le_of_le (Text.le_cursorAfter p leaf.text.toList)
    rw [List.map_cons, cursorAfter, cursorAfter, under, Text.cursorAfter_relocate t h]
    exact ih (Int.le_trans h hline)

theorem layout_relocate (t : Position) (path : Path) (h : 1 ≤ p.line) (leaves : List Leaf) :
    layout (t.relocate p) (leaves.map (under path)) =
      (layout p leaves).map fun x => (t.relocate x.1, x.2.under path) := by
  induction leaves generalizing p with
  | nil => rfl
  | cons leaf rest ih =>
    have hline := Position.line_le_of_le (Text.le_cursorAfter p leaf.text.toList)
    have hrest := ih (Int.le_trans h hline)
    rw [List.map_cons, layout, layout, List.map_append, ← hrest, under,
      Text.occupied_relocate t h, Text.cursorAfter_relocate t h, List.map_map, List.map_map]
    rfl

/-- Moved leaves have the moved extent. -/
theorem extent_relocate (t : Position) (path : Path) (h : 1 ≤ p.line) (leaves : List Leaf) :
    extent (t.relocate p) (leaves.map (under path)) = (extent p leaves).relocate t := by
  have hplaces : (layout (t.relocate p) (leaves.map (under path))).map (·.1) =
      ((layout p leaves).map (·.1)).map t.relocate := by
    rw [layout_relocate t path h, List.map_map, List.map_map]
    rfl
  rw [extent, hplaces, List.getLast?_map, Option.getD_map]
  rfl

end Leaf

/-! ## Nodes inside a tree -/

namespace Node

variable {tree n : Node} {path : Path}

mutual

/-- The leaves of a node inside a tree are its own leaves under its path. -/
theorem leavesFrom_under (path q : Path) :
    (node : Node) → node.leavesFrom (path ++ q) = (node.leavesFrom q).map (Leaf.under path)
  | .constant _ => rfl
  | .list items => leavesItems_under path q 0 items
  | .composite _ slots => leavesSlots_under path q slots

theorem leavesItems_under (path q : Path) (i : Nat) :
    (items : List Node) →
      leavesItems (path ++ q) i items = (leavesItems q i items).map (Leaf.under path)
  | [] => rfl
  | node :: rest => by
    have hnode := leavesFrom_under path (q.push (.index i)) node
    have hrest := leavesItems_under path q (i + 1) rest
    rw [leavesItems, leavesItems, List.map_append, ← hnode, ← hrest, Path.push, Path.push,
      List.append_assoc]

theorem leavesSlots_under (path q : Path) :
    (slots : List Slot) →
      leavesSlots (path ++ q) slots = (leavesSlots q slots).map (Leaf.under path)
  | [] => rfl
  | .text text :: rest => by
    have hrest := leavesSlots_under path q rest
    rw [leavesSlots, leavesSlots, List.map_cons, ← hrest]
    rfl
  | .field key value :: rest => by
    have hvalue := leavesFrom_under path (q.push (.name key)) value
    have hrest := leavesSlots_under path q rest
    rw [leavesSlots, leavesSlots, List.map_append, ← hvalue, ← hrest, Path.push, Path.push,
      List.append_assoc]

end

/-- The leaves of the node at a path are its own leaves under that path. -/
theorem leavesFrom_eq_map (path : Path) (node : Node) :
    node.leavesFrom path = node.leaves.map (Leaf.under path) := by
  rw [Node.leaves, ← leavesFrom_under path Path.root node]
  congr 1
  exact (List.append_nil path).symm

theorem leavesAhead_under (path q : Path) (node : Node) (key : Key) :
    node.leavesAhead (path ++ q) key = (node.leavesAhead q key).map (Leaf.under path) := by
  cases node with
  | constant text => rfl
  | list items =>
    cases key with
    | index i => exact leavesItems_under path q 0 (items.take i)
    | name name => rfl
  | composite kind slots =>
    cases key with
    | index i => rfl
    | name name => exact leavesSlots_under path q (Slot.ahead name slots)

theorem leavesBefore_under (path q r : Path) (node : Node) :
    node.leavesBefore (path ++ q) r = (node.leavesBefore q r).map (Leaf.under path) := by
  induction r generalizing q node with
  | nil => rfl
  | cons key rest ih =>
    rw [leavesBefore, leavesBefore, List.map_append, leavesAhead_under]
    cases node.child key with
    | none => rfl
    | some child =>
      have hchild := ih (q.push key) child
      simp only [Path.push, ← List.append_assoc] at hchild ⊢
      rw [hchild]

/-- In front of a node inside the node at `p` stand the leaves in front of the node at `p`, then those that
    are in front of it inside. -/
theorem leavesBefore_append {p : Path} (h : tree.reach p = some n) (q : Path) :
    tree.leavesBefore path (p ++ q) = tree.leavesBefore path p ++ n.leavesBefore (path ++ p) q := by
  induction p generalizing tree path with
  | nil =>
    cases h
    rw [List.append_nil]
    rfl
  | cons key rest ih =>
    obtain ⟨child, hchild, hrest⟩ := Option.bind_eq_some_iff.mp h
    have hinner : child.leavesBefore (path.push key) (rest ++ q) =
        child.leavesBefore (path.push key) rest ++ n.leavesBefore (path.push key ++ rest) q := ih hrest
    rw [List.cons_append, leavesBefore, leavesBefore, hchild, List.append_assoc]
    show _ ++ child.leavesBefore (path.push key) (rest ++ q) = _
    rw [hinner, Path.push, List.append_assoc]
    rfl

/-- A node of a tree that fits does fit. -/
theorem Fits.reach (hfits : tree.Fits) (hd : tree.Distinct) (h : tree.reach path = some n) :
    n.Fits := by
  obtain ⟨behind, hsplit, -⟩ := Node.leaves_split hd h
  have hlength := congrArg (fun leaves => (Leaf.texts leaves).length) hsplit
  simp only [Leaf.texts_append, String.length_append, Node.leaves, Node.texts_leavesFrom] at hlength
  unfold Fits at *
  omega

/-! ## The resolvers -/

/-- Where the node at `p` begins in the tree. -/
def origin (tree : Node) (p : Path) : Position :=
  Leaf.cursorAfter Position.start (tree.leavesBefore Path.root p)

/-- The box of a node inside the node at `p` is the box that it has there, moved. -/
theorem boxAt_append {p : Path} (hd : tree.Distinct) (hfits : tree.Fits)
    (hn : tree.reach p = some n) {q : Path} {m : Node} (hm : n.reach q = some m) :
    ∃ inner, n.boxAt q = .ok inner ∧
      tree.boxAt (p ++ q) = .ok (inner.relocate (tree.origin p)) := by
  have hreach : tree.reach (p ++ q) = some m := by
    rw [Node.reach_append, hn]
    exact hm
  refine ⟨_, Node.boxAt_of_reach (hd.reach hn) (hfits.reach hd hn) hm, ?_⟩
  have hline := Position.line_le_of_le
    (Leaf.le_cursorAfter Position.start (n.leavesBefore Path.root q))
  have hbefore : n.leavesBefore (Path.root ++ p) q =
      (n.leavesBefore Path.root q).map (Leaf.under p) := by
    rw [← leavesBefore_under p Path.root q n]
    congr 1
    exact (List.append_nil p).symm
  have hcursor : Leaf.cursorAfter Position.start (tree.leavesBefore Path.root (p ++ q)) =
      (tree.origin p).relocate (Leaf.cursorAfter Position.start (n.leavesBefore Path.root q)) := by
    rw [leavesBefore_append hn, Leaf.cursorAfter_append, hbefore,
      ← Leaf.cursorAfter_relocate (tree.origin p) p (Int.le_refl 1), Position.relocate_start]
    rfl
  rw [Node.boxAt_of_reach hd hfits hreach, hcursor, leavesFrom_under p q m,
    Leaf.extent_relocate (tree.origin p) p hline]

/-- The characters of the node at `p` stand in the tree where they stand in the node, moved. -/
theorem layout_origin (tree n : Node) (p : Path) :
    Leaf.layout (tree.origin p) (n.leavesFrom p) =
      (Leaf.layout Position.start n.leaves).map
        fun x => ((tree.origin p).relocate x.1, x.2.under p) := by
  rw [leavesFrom_eq_map, ← Leaf.layout_relocate (tree.origin p) p (Int.le_refl 1), Position.relocate_start]

/-- A position resolves to a path through `p` where it resolves in the node at `p`, moved. -/
theorem pathAt_append {p : Path} (hd : tree.Distinct) (hfits : tree.Fits)
    (hn : tree.reach p = some n) (x : Position) (q : Path) :
    tree.pathAt ((tree.origin p).relocate x) = .ok (some (p ++ q)) ↔ n.pathAt x = .ok (some q) := by
  rw [Node.pathAt_eq_some_iff hfits, Node.pathAt_eq_some_iff (hfits.reach hd hn)]
  constructor
  · rintro ⟨leaf, hm, howner⟩
    -- the owner is under `p`, so the character is one of the node
    have hin := (Node.mem_layout_iff_prefix hd hn hm).mpr (howner ▸ List.prefix_append p q)
    rw [show Leaf.cursorAfter _ _ = tree.origin p from rfl, layout_origin] at hin
    obtain ⟨⟨y, other⟩, hother, heq⟩ := List.mem_map.mp hin
    injection heq with hplace hleaf
    obtain rfl := Position.relocate_injective hplace
    refine ⟨other, hother, ?_⟩
    rw [← hleaf] at howner
    exact List.append_cancel_left howner
  · rintro ⟨leaf, hm, rfl⟩
    obtain ⟨behind, hsplit, -⟩ := Node.leaves_split hd hn
    refine ⟨leaf.under p, ?_, rfl⟩
    rw [hsplit, Leaf.layout_append, Leaf.layout_append]
    apply List.mem_append_right
    apply List.mem_append_left
    rw [show Leaf.cursorAfter _ _ = tree.origin p from rfl, layout_origin]
    exact List.mem_map.mpr ⟨_, hm, rfl⟩

/-- **Relocation.** Both resolvers commute with descending. Let `n` be the node at `p`, and move every
    position of `n` to where the box of `p` begins. Then the box of `p` ends where the box of `n` as a tree
    does; the box of a path under `p` is the box that the rest of the path has in `n`, or there is none of
    either; and a position resolves in the tree to a path under `p` exactly if it resolves in `n` to the
    rest of the path. -/
theorem resolves_relocated (tree n : Node) (hd : tree.Distinct) (hfits : tree.Fits) (p : Path)
    (hn : tree.descend p = .ok n) :
    ∃ box whole, tree.boxAt p = .ok box ∧ n.box = .ok whole ∧
      box.bottomRight = box.topLeft.relocate whole.bottomRight ∧
      (∀ q,
        (∃ inner, n.boxAt q = .ok inner ∧
          tree.boxAt (p ++ q) = .ok ⟨box.topLeft.relocate inner.topLeft,
            box.topLeft.relocate inner.bottomRight⟩) ∨
        (n.boxAt q = .error (.noSuchPath q) ∧
          tree.boxAt (p ++ q) = .error (.noSuchPath (p ++ q)))) ∧
      ∀ x q, tree.pathAt (box.topLeft.relocate x) = .ok (some (p ++ q)) ↔
        n.pathAt x = .ok (some q) := by
  have hreach := Node.descend_eq_ok_iff.mp hn
  have hdn := hd.reach hreach
  have hfitsn := hfits.reach hd hreach
  refine ⟨Leaf.extent (tree.origin p) (n.leavesFrom p), Leaf.extent Position.start n.leaves,
    Node.boxAt_of_reach hd hfits hreach, ?_, ?_, ?_, pathAt_append hd hfits hreach⟩
  · rw [Node.box, Node.boxAt?_of_reach hdn hfitsn (show n.reach Path.root = some n from rfl)]
    rfl
  · have hmoved := Leaf.extent_relocate (tree.origin p) p (Int.le_refl Position.start.line) n.leaves
    rw [Position.relocate_start, ← leavesFrom_eq_map] at hmoved
    exact congrArg BoundingBox.bottomRight hmoved
  · intro q
    cases hm : n.reach q with
    | some m => exact Or.inl (boxAt_append hd hfits hreach hm)
    | none =>
      have houter : tree.reach (p ++ q) = none := by
        rw [Node.reach_append, hreach]
        exact hm
      exact Or.inr
        ⟨(Node.boxAt_eq_noSuchPath_iff hdn hfitsn).mpr (Node.descend_eq_error_iff.mpr hm),
          (Node.boxAt_eq_noSuchPath_iff hd hfits).mpr (Node.descend_eq_error_iff.mpr houter)⟩

/-- The list begins behind a bracket on line 2, so only its first line is moved to the right: its element
    on its own line 2 stands at the same column of line 3. -/
theorem resolves_relocated_list :
    let list : Node := .list [.constant "ab", .constant "\n", .constant "c"]
    let tree : Node := .composite "t" [.text "x\n(", .field "items" list, .text ")"]
    tree.boxAt [.name "items"] = .ok ⟨⟨2, 2⟩, ⟨3, 1⟩⟩ ∧
      tree.boxAt [.name "items", .index 0] = .ok ⟨⟨2, 2⟩, ⟨2, 3⟩⟩ ∧
      tree.pathAt ⟨3, 1⟩ = .ok (some [.name "items", .index 2]) ∧
      tree.boxAt [.name "items", .index 3] = .error (.noSuchPath [.name "items", .index 3]) := by
  intro list tree
  have hd : tree.Distinct := by decide
  have hfits : tree.Fits := by decide
  have hbox : tree.boxAt [.name "items"] = .ok ⟨⟨2, 2⟩, ⟨3, 1⟩⟩ :=
    Node.boxAt_of_reach hd hfits (show tree.reach [.name "items"] = some list from rfl)
  obtain ⟨box, whole, hbox', -, -, hboxes, hpaths⟩ :=
    resolves_relocated tree list hd hfits [.name "items"] rfl
  obtain rfl : ⟨⟨2, 2⟩, ⟨3, 1⟩⟩ = box := Except.ok.inj (hbox.symm.trans hbox')
  have hfirst : list.boxAt [.index 0] = .ok ⟨⟨1, 1⟩, ⟨1, 2⟩⟩ :=
    Node.boxAt_of_reach (by decide) (by decide)
      (show list.reach [.index 0] = some (.constant "ab") from rfl)
  have hmissing : list.boxAt [.index 3] = .error (.noSuchPath [.index 3]) := by rfl
  refine ⟨hbox, ?_, (hpaths ⟨2, 1⟩ [.index 2]).mpr rfl, ?_⟩
  · rcases hboxes [.index 0] with ⟨inner, hinner, houter⟩ | ⟨hnone, -⟩
    · obtain rfl := Except.ok.inj (hfirst.symm.trans hinner)
      exact houter
    · rw [hfirst] at hnone
      cases hnone
  · rcases hboxes [.index 3] with ⟨inner, hinner, -⟩ | ⟨-, hnone⟩
    · rw [hmissing] at hinner
      cases hinner
    · exact hnone

end Node

end LosslessTree
