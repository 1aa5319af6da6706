import LosslessTree.Proofs.Ancestors
import LosslessTree.Proofs.Relocation
import LosslessTree.Proofs.SourceOrder
import LosslessTree.Proofs.Tiling

/-!
# `Proofs.BoxOrder` — the boxes of a tree among each other

Two nodes of a tree are either on one path, and then the leaves of one are among those of the other, or
apart, and then all leaves of the one stand in front of the other. Boxes are extents of leaves, so that
the first two boxes are nested and the second two stand one behind the other.

A node without a character other than line ends has the box of one position, the cursor where it begins.
That cursor can be behind the last character of the node around it. So the box of such a node begins
inside the box around it or behind it, but need not end inside.

## Contents
- **Extents.** `Leaf.bottomRight_le_cursorAfter`, `Leaf.bottomRight_le_of_part`.
- **Leaves in front.** `Node.Precedes.leavesBefore_eq`: in front of a node stand all leaves of the nodes
  that come before it and are not on the way to it.
- **`Node.precedes_or_precedes`**, of any two nodes one comes before the other.
- **`Node.boxes_nested_or_ordered`**.
-/

namespace LosslessTree

/-! ## Extents -/

namespace Leaf

/-- An extent ends in front of the cursor after its leaves if they occupy anything. -/
theorem bottomRight_lt_cursorAfter {p : Position} {leaves : List Leaf} (h : layout p leaves ≠ []) :
    (extent p leaves).bottomRight < cursorAfter p leaves := by
  obtain ⟨y, hy, hlast, -⟩ := exists_bottomRight h
  rw [hlast]
  exact lt_cursorAfter_of_mem_layout hy

/-- An extent never ends behind the cursor after its leaves. -/
theorem bottomRight_le_cursorAfter (p : Position) (leaves : List Leaf) :
    (extent p leaves).bottomRight ≤ cursorAfter p leaves := by
  by_cases h : layout p leaves = []
  · have hpoint : (extent p leaves).bottomRight = p := by simp [extent, h]
    rw [hpoint]
    exact le_cursorAfter p leaves
  · exact le_of_lt (bottomRight_lt_cursorAfter h)

theorem topLeft_le_bottomRight (p : Position) (leaves : List Leaf) :
    (extent p leaves).topLeft ≤ (extent p leaves).bottomRight := by
  by_cases h : layout p leaves = []
  · have hpoint : extent p leaves = ⟨p, p⟩ := by simp [extent, h]
    rw [hpoint]
  · obtain ⟨y, hy, hlast, -⟩ := exists_bottomRight h
    rw [hlast]
    exact le_of_mem_layout hy

/-- Leaves that occupy anything end no later than the leaves that they are part of. -/
theorem bottomRight_le_of_part {p : Position} {before inner : List Leaf}
    (h : layout (cursorAfter p before) inner ≠ []) (behind : List Leaf) :
    (extent (cursorAfter p before) inner).bottomRight ≤
      (extent p (before ++ (inner ++ behind))).bottomRight := by
  obtain ⟨y, hy, hlast, -⟩ := exists_bottomRight h
  have hin : y ∈ layout p (before ++ (inner ++ behind)) := by
    rw [layout_append, layout_append]
    exact List.mem_append_right _ (List.mem_append_left _ hy)
  obtain ⟨z, -, hend, hgreatest⟩ := exists_bottomRight (List.ne_nil_of_mem hin)
  rw [hlast, hend]
  exact hgreatest y hin

/-- Both corners of an extent have coordinates if there is room for its leaves. -/
theorem room_extent {p : Position} {leaves : List Leaf} (h : p.Room (texts leaves).length) :
    (extent p leaves).topLeft.Room 0 ∧ (extent p leaves).bottomRight.Room 0 := by
  have hbegin : p.Room 0 := h.mono (Nat.zero_le _)
  refine ⟨hbegin, ?_⟩
  by_cases hblank : layout p leaves = []
  · have hpoint : (extent p leaves).bottomRight = p := by simp [extent, hblank]
    rw [hpoint]
    exact hbegin
  · obtain ⟨y, hy, hlast, -⟩ := exists_bottomRight hblank
    rw [hlast]
    exact h.of_mem_layout hy

end Leaf

/-- The lines of a box can be counted if its corners have coordinates in the text. -/
theorem BoundingBox.lineSpan_eq_ok {b : BoundingBox} (h : b.topLeft.Room 0)
    (h' : b.bottomRight.Room 0) : b.lineSpan = .ok (b.bottomRight.line - b.topLeft.line + 1) := by
  unfold Position.Room Coordinate.greatest at h h'
  have hdifference : Coordinate.InRange (b.bottomRight.line - b.topLeft.line) := by
    unfold Coordinate.InRange Coordinate.least Coordinate.greatest
    omega
  have hspan : Coordinate.InRange (b.bottomRight.line - b.topLeft.line + 1) := by
    unfold Coordinate.InRange Coordinate.least Coordinate.greatest
    omega
  rw [BoundingBox.lineSpan, Coordinate.subtract, Coordinate.settle_eq_ok hdifference]
  exact Coordinate.settle_eq_ok hspan

/-! ## Leaves in front of a node -/

/-- The slots ahead of a later field are those ahead of an earlier one, that field, and more. -/
theorem Slot.ahead_of_later {ahead behind : List Slot} {key name : String} {value : Node}
    (hnodup : (Slot.names (ahead ++ .field key value :: behind)).Nodup)
    (hname : name ∈ Slot.names behind) :
    Slot.ahead name (ahead ++ .field key value :: behind) =
      Slot.ahead key (ahead ++ .field key value :: behind) ++
        .field key value :: Slot.ahead name behind := by
  induction ahead with
  | nil =>
    have hne : key ≠ name := by
      rintro rfl
      exact (List.nodup_cons.mp hnodup).1 hname
    rw [List.nil_append, Slot.ahead_self, Slot.ahead_of_ne hne, List.nil_append]
  | cons slot rest ih =>
    cases slot with
    | text text => exact congrArg (Slot.text text :: ·) (ih hnodup)
    | field k v =>
      obtain ⟨hk, hrest⟩ : k ∉ Slot.names (rest ++ .field key value :: behind) ∧
        (Slot.names (rest ++ .field key value :: behind)).Nodup := List.nodup_cons.mp hnodup
      rw [Slot.names_append, List.mem_append] at hk
      -- a name that is used again behind the field `k` is not `k`
      have hkname : k ≠ name := by
        rintro rfl
        exact hk (Or.inr (List.mem_cons_of_mem _ hname))
      have hkkey : k ≠ key := by
        rintro rfl
        exact hk (Or.inr List.mem_cons_self)
      rw [List.cons_append, Slot.ahead_of_ne hkname, Slot.ahead_of_ne hkkey]
      exact congrArg (Slot.field k v :: ·) (ih hrest)

namespace Node

variable {tree parent child m n : Node} {p q : Path}

/-- Among the leaves ahead of an element are those of every earlier element. -/
theorem leavesAhead_later_element {items : List Node} {i j : Nat} (h : items[i]? = some child)
    (hij : i < j) (path : Path) :
    ∃ between, (Node.list items).leavesAhead path (.index j) =
      (Node.list items).leavesAhead path (.index i) ++
        (child.leavesFrom (path.push (.index i)) ++ between) := by
  obtain ⟨hlt, -⟩ := List.getElem?_eq_some_iff.mp h
  have hlen : (items.take i).length = i := List.length_take_of_le (Nat.le_of_lt hlt)
  -- in front of `j` stand the elements in front of `i`, the child, and those between
  have hsplit : items.take j = items.take i ++ child :: (items.take j).drop (i + 1) := by
    have hearlier : (items.take j)[i]? = some child := by
      rw [List.getElem?_take_of_lt hij, h]
    obtain ⟨_, hchild⟩ := List.getElem?_eq_some_iff.mp hearlier
    have htake : items.take i = (items.take j).take i := by
      rw [List.take_take, Nat.min_eq_left (Nat.le_of_lt hij)]
    rw [htake, ← hchild, List.getElem_cons_drop, List.take_append_drop]
  refine ⟨Node.leavesItems path (i + 1) ((items.take j).drop (i + 1)), ?_⟩
  show Node.leavesItems path 0 (items.take j) = Node.leavesItems path 0 (items.take i) ++ _
  rw [hsplit, Node.leavesItems_append, hlen, Nat.zero_add, Node.leavesItems, ← hsplit]

/-- Among the leaves ahead of a field are those of every earlier field. -/
theorem leavesAhead_later_field (kind : String) {key name : String} {value : Node} {ahead behind : List Slot}
    (hnodup : (Slot.names (ahead ++ .field key value :: behind)).Nodup)
    (hname : name ∈ Slot.names behind) (path : Path) :
    ∃ between, (Node.composite kind (ahead ++ .field key value :: behind)).leavesAhead path
        (.name name) =
      (Node.composite kind (ahead ++ .field key value :: behind)).leavesAhead path (.name key) ++
        (value.leavesFrom (path.push (.name key)) ++ between) := by
  refine ⟨Node.leavesSlots path (Slot.ahead name behind), ?_⟩
  show Node.leavesSlots path (Slot.ahead name _) = Node.leavesSlots path (Slot.ahead key _) ++ _
  rw [Slot.ahead_of_later hnodup hname, Node.leavesSlots_append, Node.leavesSlots]

/-- Where two paths part, the leaves ahead of the second child decide what is in front of its nodes. -/
theorem leavesBefore_of_ahead {r a : Path} {key next : Key} {between : List Leaf}
    (hd : tree.Distinct) (hparent : tree.reach r = some parent) (hchild : parent.child key = some child)
    (hm : child.reach a = some m)
    (hahead : parent.leavesAhead r next =
      parent.leavesAhead r key ++ (child.leavesFrom (r.push key) ++ between)) (b : Path) :
    ∃ rest, tree.leavesBefore Path.root (r ++ next :: b) =
      tree.leavesBefore Path.root (r ++ key :: a) ++ (m.leavesFrom (r ++ key :: a) ++ rest) := by
  have hdchild := (hd.reach hparent).child hchild
  obtain ⟨behind, hsplit, -⟩ := Node.leavesFrom_split hdchild hm (r.push key)
  have hpath : r.push key ++ a = r ++ key :: a := by simp [Path.push]
  rw [hpath] at hsplit
  have hbefore : ∀ s, tree.leavesBefore Path.root (r ++ s) =
      tree.leavesBefore Path.root r ++ parent.leavesBefore r s := Node.leavesBefore_append hparent
  -- both paths go through the parent, and below it only what is ahead of `next` counts
  have hnext := hbefore (next :: b)
  have hkey := hbefore (key :: a)
  rw [leavesBefore] at hnext hkey
  rw [hchild] at hkey
  rw [hnext, hkey, hahead, hsplit]
  exact ⟨_, by simp only [List.append_assoc]; rfl⟩

/-- In front of a node stand all leaves of the nodes that come before it and are not on the way to it. -/
theorem Precedes.leavesBefore_eq (hd : tree.Distinct) (h : tree.Precedes p q) (hapart : ¬ p <+: q)
    (hm : tree.reach p = some m) :
    ∃ between, tree.leavesBefore Path.root q =
      tree.leavesBefore Path.root p ++ (m.leavesFrom p ++ between) := by
  cases h with
  | above _ key r => exact absurd (List.prefix_append p (key :: r)) hapart
  | @element r items i j a b hlist hij =>
    rw [Node.reach_append, hlist, Option.bind_some, Node.reach] at hm
    obtain ⟨child, hchild, hrest⟩ := Option.bind_eq_some_iff.mp hm
    obtain ⟨between, hahead⟩ := leavesAhead_later_element hchild hij r
    exact leavesBefore_of_ahead hd hlist hchild hrest hahead b
  | @field r kind key name value ahead behind a b hcomposite hname =>
    rw [Node.reach_append, hcomposite, Option.bind_some, Node.reach] at hm
    obtain ⟨child, hchild, hrest⟩ := Option.bind_eq_some_iff.mp hm
    have hnodup : (Slot.names (ahead ++ .field key value :: behind)).Nodup := (hd.reach hcomposite).1
    -- names are distinct, so the path goes through the very field that comes first
    have hvalue : Slot.fieldValue (ahead ++ .field key value :: behind) key = some value :=
      Slot.fieldValue_of_mem hnodup (List.mem_append_right _ List.mem_cons_self)
    have hsame : value = child := Option.some.inj (hvalue.symm.trans hchild)
    subst hsame
    obtain ⟨between, hahead⟩ := leavesAhead_later_field kind hnodup hname r
    exact leavesBefore_of_ahead hd hcomposite hchild hrest hahead b

/-- Of two nodes one comes before the other. -/
theorem precedes_or_precedes (hd : tree.Distinct) (hm : tree.reach p = some m)
    (hn : tree.reach q = some n) (hne : p ≠ q) : tree.Precedes p q ∨ tree.Precedes q p := by
  -- both are in the list of descendants, and that list is in order
  have hlisted : ∀ {r : Path} {x : Node}, tree.reach r = some x → r ∈ tree.descendants.map (·.1) :=
    fun hx => List.mem_map.mpr ⟨_, (Node.mem_descendants_iff hd).mpr hx, rfl⟩
  have hpairs := Node.pairwise_descendants hd
  exact List.Pairwise.forall_of_forall_of_flip
    (R := fun p q => p ≠ q → tree.Precedes p q ∨ tree.Precedes q p) (fun _ _ h => absurd rfl h)
    (hpairs.imp fun h _ => Or.inl h) (hpairs.imp fun h _ => Or.inr h) (hlisted hm) (hlisted hn) hne

/-! ## Boxes -/

/-- Where a node begins in a tree that fits, there is room for its text. -/
theorem room_origin (hd : tree.Distinct) (hfits : tree.Fits) (h : tree.reach p = some m) :
    (tree.origin p).Room (Leaf.texts (m.leavesFrom p)).length := by
  obtain ⟨behind, hsplit, -⟩ := Node.leaves_split hd h
  have hroom := hfits.room
  rw [hsplit, Leaf.texts_append, String.length_append, Leaf.texts_append, String.length_append] at hroom
  exact hroom.cursorAfter_leaves.mono (Nat.le_add_right _ _)

/-- The lines of the box of a node can be counted. -/
theorem exists_lineSpan (hd : tree.Distinct) (hfits : tree.Fits) (h : tree.reach p = some m) :
    ∃ box span, tree.boxAt p = .ok box ∧ box.lineSpan = .ok span := by
  obtain ⟨hbegin, hend⟩ := Leaf.room_extent (room_origin hd hfits h)
  exact ⟨_, _, Node.boxAt_of_reach hd hfits h, BoundingBox.lineSpan_eq_ok hbegin hend⟩

/-- The extent of a node on the way to another begins no later, and ends no earlier if the other occupies
    anything. -/
theorem extent_of_prefix (hd : tree.Distinct) (hm : tree.reach p = some m)
    (hn : tree.reach q = some n) (h : p <+: q) :
    let P := Leaf.extent (tree.origin p) (m.leavesFrom p)
    let Q := Leaf.extent (tree.origin q) (n.leavesFrom q)
    P.topLeft ≤ Q.topLeft ∧ (n.Inked → Q.bottomRight ≤ P.bottomRight) := by
  intro P Q
  obtain ⟨r, rfl⟩ := h
  rw [Node.reach_append, hm] at hn
  have horigin : tree.origin (p ++ r) = Leaf.cursorAfter (tree.origin p) (m.leavesBefore p r) := by
    rw [origin, Node.leavesBefore_append hm, Leaf.cursorAfter_append]
    rfl
  refine ⟨?_, ?_⟩
  · show tree.origin p ≤ tree.origin (p ++ r)
    rw [horigin]
    exact Leaf.le_cursorAfter _ _
  · -- the leaves of the second node are a part of those of the first
    intro hinked
    obtain ⟨behind, hsplit, -⟩ := Node.leavesFrom_split (hd.reach hm) hn p
    show (Leaf.extent (tree.origin (p ++ r)) (n.leavesFrom (p ++ r))).bottomRight ≤
      (Leaf.extent (tree.origin p) (m.leavesFrom p)).bottomRight
    rw [horigin, hsplit]
    exact Leaf.bottomRight_le_of_part ((Node.inked_iff _).mp hinked) behind

/-- The extent of a node that comes before another and is not on the way to it ends no later than the other
    begins, and in front of it if the first occupies anything. -/
theorem extent_of_precedes (hd : tree.Distinct) (hm : tree.reach p = some m)
    (h : tree.Precedes p q) (hapart : ¬ p <+: q) :
    let P := Leaf.extent (tree.origin p) (m.leavesFrom p)
    P.bottomRight ≤ tree.origin q ∧ (m.Inked → P.bottomRight < tree.origin q) := by
  intro P
  obtain ⟨between, hbefore⟩ := h.leavesBefore_eq hd hapart hm
  have hafter : Leaf.cursorAfter (tree.origin p) (m.leavesFrom p) ≤ tree.origin q := by
    unfold origin
    rw [hbefore, Leaf.cursorAfter_append, Leaf.cursorAfter_append]
    exact Leaf.le_cursorAfter _ _
  refine ⟨le_trans (Leaf.bottomRight_le_cursorAfter _ _) hafter, ?_⟩
  intro hinked
  have hlayout : Leaf.layout (tree.origin p) (m.leavesFrom p) ≠ [] := (Node.inked_iff _).mp hinked
  exact lt_of_lt_of_le (Leaf.bottomRight_lt_cursorAfter hlayout) hafter

/-- **Boxes are nested or ordered.** Every node has a box, which does not end before it begins. If one node is
    on the way to another, its box begins no later, and ends no earlier if the other renders a character
    other than line ends. If neither is on the way to the other, one of them comes first in the order of
    the text; its box ends no later than the other begins, and in front of it if the first node renders
    a character other than line ends. -/
theorem boxes_nested_or_ordered (tree : Node) (hd : tree.Distinct) (hfits : tree.Fits) (p q : Path)
    (m n : Node) (hm : tree.descend p = .ok m) (hn : tree.descend q = .ok n) :
    ∃ P Q : BoundingBox, tree.boxAt p = .ok P ∧ tree.boxAt q = .ok Q ∧
      P.topLeft ≤ P.bottomRight ∧
      (p <+: q → P.topLeft ≤ Q.topLeft ∧ (n.Inked → Q.bottomRight ≤ P.bottomRight)) ∧
      (¬ p <+: q → ¬ q <+: p →
        (tree.Precedes p q ∨ tree.Precedes q p) ∧
        (tree.Precedes p q →
          P.bottomRight ≤ Q.topLeft ∧ (m.Inked → P.bottomRight < Q.topLeft))) := by
  have hm' := Node.descend_eq_ok_iff.mp hm
  have hn' := Node.descend_eq_ok_iff.mp hn
  refine ⟨_, _, Node.boxAt_of_reach hd hfits hm', Node.boxAt_of_reach hd hfits hn',
    Leaf.topLeft_le_bottomRight _ _, extent_of_prefix hd hm' hn', ?_⟩
  intro hpq hqp
  have hne : p ≠ q := by
    rintro rfl
    exact hpq (List.prefix_refl p)
  exact ⟨precedes_or_precedes hd hm' hn' hne, fun h => extent_of_precedes hd hm' h hpq⟩

/-- A field that ends in a line end and an empty list behind it: the box of the list is behind that of the
    field. It begins no earlier than the box of the whole tree, and is behind its end. -/
theorem boxes_nested_or_ordered_blank :
    let tree : Node := .composite "pair" [.field "a" (.constant "x\n"), .field "b" (.list [])]
    (∃ P Q : BoundingBox, tree.boxAt [.name "a"] = .ok P ∧ tree.boxAt [.name "b"] = .ok Q ∧
      P.bottomRight < Q.topLeft) ∧
    ∃ P Q : BoundingBox, tree.boxAt [] = .ok P ∧ tree.boxAt [.name "b"] = .ok Q ∧
      P.topLeft ≤ Q.topLeft ∧ P.bottomRight < Q.bottomRight := by
  intro tree
  have hd : tree.Distinct := by decide
  have hfits : tree.Fits := by decide
  have hroot : tree.reach [] = some (.composite "pair"
      ([] ++ .field "a" (.constant "x\n") :: [.field "b" (.list [])])) := rfl
  have hfirst : tree.Precedes [.name "a"] [.name "b"] := .field (p := []) [] [] hroot (by decide)
  constructor
  · obtain ⟨P, Q, hP, hQ, -, -, hapart⟩ :=
      boxes_nested_or_ordered tree hd hfits [.name "a"] [.name "b"] _ _ rfl rfl
    exact ⟨P, Q, hP, hQ, ((hapart (by decide) (by decide)).2 hfirst).2 (by decide)⟩
  · obtain ⟨P, Q, hP, hQ, -, hnested, -⟩ :=
      boxes_nested_or_ordered tree hd hfits [] [.name "b"] _ _ rfl rfl
    refine ⟨P, Q, hP, hQ, (hnested List.nil_prefix).1, ?_⟩
    have hwhole : tree.boxAt [] = .ok ⟨⟨1, 1⟩, ⟨1, 1⟩⟩ := by rfl
    have hlist : tree.boxAt [.name "b"] = .ok ⟨⟨2, 1⟩, ⟨2, 1⟩⟩ := by rfl
    cases hP.symm.trans hwhole
    cases hQ.symm.trans hlist
    decide

end Node

end LosslessTree
