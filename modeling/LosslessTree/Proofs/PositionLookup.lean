import LosslessTree.Proofs.Layout
import LosslessTree.Proofs.Trail
import LosslessTree.Resolve.Cursor

/-!
# `Proofs.PositionLookup` — the node at a position against the layout

The search for a position goes through a tree run by run and halts early: at the first stretch that
covers the target, and as soon as the cursor is past the line of the target. Both are harmless. A
position is occupied at most once, so the first stretch that covers the target is the only one; and
the lines of a layout never go down, so nothing past the line of the target stands on it.

`Search.Finds` names the three ways in which a part of the text can be searched. They are shown for the
runs of a leaf (`Search.scan_finds`), then for the calls of a walk (`Search.run_finds`), and from
there for the whole tree.

## Contents
- **Runs.** `Search.covers_eq`, `Search.Finds`, `Search.scan_finds`.
- **Calls.** `Search.run_finds`.
- **Trees.** `Leaf.Located`, `Node.pathAt_located`, `Node.pathAt_eq_some_iff`.
-/

namespace LosslessTree

namespace Search

/-! ## Runs -/

/-- A stretch covers the positions that it occupies. -/
theorem covers_eq {target p : Position} {k n : Nat} (h : p.Room (k + n)) :
    covers target p (Coordinate.ofCount k) = .ok (decide (target ∈ p.columns k)) := by
  unfold covers
  by_cases hfront : target.line = p.line ∧ p.column ≤ target.column
  · rw [if_pos hfront, h.ofCount, Coordinate.add, Coordinate.settle_eq_ok h.inRange_column]
    show Except.ok (decide (target.column < p.column + k)) = _
    congr 1
    apply decide_eq_decide.mpr
    rw [Position.mem_columns_iff]
    exact ⟨fun hlt => ⟨hfront.1, hfront.2, hlt⟩, fun hm => hm.2.2⟩
  · rw [if_neg hfront]
    show Except.ok false = _
    congr 1
    symm
    apply decide_eq_false
    rw [Position.mem_columns_iff]
    exact fun hm => hfront ⟨hm.1, hm.2.1⟩

/-- What a search makes of a text at `path` that occupies `places` and ends at the cursor `final`. -/
inductive Finds (target : Position) (path : Path) (places : List Position) (final : Position) :
    Search × Flow → Prop
  /-- The target is among the places. -/
  | here {cursor : Position} : target ∈ places → Finds target path places final (⟨cursor, some path⟩, .halt)
  /-- The text goes beyond the line of the target. -/
  | passed {cursor : Position} : target ∉ places → target.line < final.line →
      Finds target path places final (⟨cursor, none⟩, .halt)
  /-- The target may be further on. -/
  | missed : target ∉ places → Finds target path places final (⟨final, none⟩, .proceed)

theorem scan_finds (target : Position) (path : Path) {runs : List Run} {p : Position} {n : Nat}
    (h : p.Room (Run.size runs + n)) :
    ∃ r, scan target path runs ⟨p, none⟩ = .ok r ∧
      Finds target path (Run.occupied p runs) (Run.cursorAfter p runs) r := by
  induction runs generalizing p with
  | nil => exact ⟨_, rfl, .missed List.not_mem_nil⟩
  | cons run rest ih =>
    cases run with
    | newline mark =>
      obtain ⟨hline, hroom⟩ := h.of_newline.nextLine
      rw [scan, hline]
      show ∃ r, (if target.line < p.nextLine.line then
        Except.ok ((⟨p.nextLine, none⟩ : Search), Flow.halt)
        else scan target path rest ⟨p.nextLine, none⟩) = .ok r ∧ _
      by_cases hpast : target.line < p.nextLine.line
      · -- nothing from here on stands on the line of the target
        rw [if_pos hpast]
        refine ⟨_, rfl, .passed ?_ ?_⟩
        · intro hm
          have hle := Run.line_le_of_mem_occupied (p := p.nextLine) hm
          omega
        · have hle := Run.line_le_cursorAfter p.nextLine rest
          exact Int.lt_of_lt_of_le hpast hle
      · rw [if_neg hpast]
        exact ih hroom
    | stretch chars =>
      obtain ⟨hcolumns, hroom⟩ := h.of_stretch.shift
      rw [scan, covers_eq h.of_stretch, hcolumns]
      show ∃ r, (if decide (target ∈ p.columns chars.length) = true then
        Except.ok ((⟨p, some path⟩ : Search), Flow.halt)
        else scan target path rest ⟨p.shift chars.length, none⟩) = .ok r ∧ _
      by_cases hm : target ∈ p.columns chars.length
      · rw [if_pos (decide_eq_true hm)]
        exact ⟨_, rfl, .here (List.mem_append_left _ hm)⟩
      · rw [if_neg (by simpa using hm)]
        obtain ⟨r, hr, hfinds⟩ := ih hroom
        refine ⟨r, hr, ?_⟩
        have hrest : target ∈ Run.occupied p (.stretch chars :: rest) ↔
            target ∈ Run.occupied (p.shift chars.length) rest :=
          ⟨fun hin => (List.mem_append.mp hin).resolve_left hm, List.mem_append_right _⟩
        cases hfinds with
        | here hin => exact .here (hrest.mpr hin)
        | passed hout hline => exact .passed (fun hin => hout (hrest.mp hin)) hline
        | missed hout => exact .missed fun hin => hout (hrest.mp hin)

/-! ## Leaves and calls -/

/-- The search reads the characters of a leaf. -/
theorem leaf_finds (target : Position) (leaf : Leaf) {p : Position} {n : Nat}
    (h : p.Room (leaf.text.length + n)) :
    ∃ s flow, (strategy target).call (.leaf leaf.owner leaf.text) (.ok ⟨p, none⟩) = (.ok s, flow) ∧
      Finds target leaf.owner (Text.occupied p leaf.text.toList)
        (Text.cursorAfter p leaf.text.toList) (s, flow) := by
  rw [← Run.size_runs] at h
  obtain ⟨⟨s, flow⟩, hscan, hfinds⟩ := scan_finds target leaf.owner h
  refine ⟨s, flow, ?_, ?_⟩
  · show attempt (scan target leaf.owner (Text.runs leaf.text)) (.ok ⟨p, none⟩) = _
    rw [attempt, hscan]
  · rw [← Run.occupied_cut, ← Run.cursorAfter_cut]
    exact hfinds

end Search

/-- The answer of a search is the owner of the leaf whose character stands at the target, or none if no
    character stands there. -/
def Leaf.Located (target p : Position) (leaves : List Leaf) : Option Path → Prop
  | some path => ∃ leaf, (target, leaf) ∈ Leaf.layout p leaves ∧ leaf.owner = path
  | none => ∀ leaf, (target, leaf) ∉ Leaf.layout p leaves

namespace Leaf.Located

variable {target p : Position} {leaf : Leaf} {rest : List Leaf}

theorem of_first (h : target ∈ Text.occupied p leaf.text.toList) :
    Located target p (leaf :: rest) (some leaf.owner) :=
  ⟨leaf, mem_layout_cons.mpr (Or.inl ⟨h, rfl⟩), rfl⟩

/-- A leaf that does not hold the target does not change the answer. -/
theorem of_rest {found : Option Path} (hout : target ∉ Text.occupied p leaf.text.toList)
    (h : Located target (Text.cursorAfter p leaf.text.toList) rest found) :
    Located target p (leaf :: rest) found := by
  cases found with
  | none =>
    intro other hm
    rcases mem_layout_cons.mp hm with ⟨hin, -⟩ | hm
    · exact hout hin
    · exact h other hm
  | some path =>
    obtain ⟨other, hm, howner⟩ := h
    exact ⟨other, mem_layout_cons.mpr (Or.inr hm), howner⟩

/-- Nothing is found behind a cursor that is past the line of the target. -/
theorem of_passed (leaves : List Leaf) (h : target.line < p.line) : Located target p leaves none := by
  intro leaf hm
  have hle := Position.line_le_of_le (le_of_mem_layout hm)
  simp only at hle
  omega

end Leaf.Located

namespace Search

/-- Calls that enter or leave an item are no concern of the search. -/
theorem after_leaves (target : Position) {es : List PathEvent} (s : Except Overflow Search)
    (h : ∀ e ∈ es, ∃ path item, e = PathEvent.leave path item) :
    Calls.after (strategy target).call es s = s := by
  induction es with
  | nil => rfl
  | cons e es ih =>
    obtain ⟨path, item, rfl⟩ := h e (List.mem_cons_self ..)
    exact ih fun e he => h e (List.mem_cons_of_mem _ he)

/-- **The calls of a walk.** Whether the search halts or comes to the end, it has the answer that the
    layout of the leaves gives. -/
theorem run_finds (target : Position) (es : List PathEvent) {p : Position}
    (h : p.Room (Leaf.texts (es.filterMap PathEvent.leaf?)).length) :
    ∃ s : Search, Leaf.Located target p (es.filterMap PathEvent.leaf?) s.found ∧
      Calls.run (strategy target).call es (.ok ⟨p, none⟩) = .ok s := by
  induction es generalizing p with
  | nil => exact ⟨⟨p, none⟩, fun leaf hm => absurd hm List.not_mem_nil, rfl⟩
  | cons e es ih =>
    cases e with
    | enter path item => exact ih h
    | leave path item => exact ih h
    | leaf path text =>
      have hroom : p.Room (text.length + (Leaf.texts (es.filterMap PathEvent.leaf?)).length) := by
        rw [← String.length_append]
        exact h
      have hleaves : (PathEvent.leaf path text :: es).filterMap PathEvent.leaf? =
          ⟨path, text⟩ :: es.filterMap PathEvent.leaf? := rfl
      rw [hleaves]
      obtain ⟨s, flow, hcall, hfinds⟩ := leaf_finds target ⟨path, text⟩ hroom
      cases hfinds with
      | here hin => exact ⟨_, .of_first hin, Calls.run_cons_halt hcall es⟩
      | passed hout hline =>
        exact ⟨_, .of_rest hout (.of_passed _ hline), Calls.run_cons_halt hcall es⟩
      | missed hout =>
        -- the cursor is where the layout of the other leaves begins
        obtain ⟨s, hlocated, hrun⟩ := ih (Position.Room.cursorAfter (String.length_toList ▸ hroom))
        exact ⟨s, .of_rest hout hlocated, (Calls.run_cons_proceed hcall es).trans hrun⟩

end Search

/-! ## Trees -/

/-- The search comes to an end and has the answer that the layout of the tree gives. -/
theorem Node.pathAt_located {tree : Node} (hfits : tree.Fits) (target : Position) :
    ∃ found, tree.pathAt target = .ok found ∧ Leaf.Located target Position.start tree.leaves found := by
  have hleaves := Node.filterMap_trail PathEvent.picks_leaf? tree
  have hroom : Position.start.Room (Leaf.texts (tree.trail.filterMap PathEvent.leaf?)).length := by
    rw [hleaves]
    exact hfits.room
  obtain ⟨s, hlocated, hfinds⟩ := Search.run_finds target tree.trail hroom
  obtain ⟨closing, hclosing, hrun⟩ := (Search.strategy target).run_eq tree (.ok Search.start)
  refine ⟨s.found, ?_, hleaves ▸ hlocated⟩
  rw [Node.pathAt, hrun, Search.after_leaves target _ hclosing,
    show Search.start = ⟨Position.start, none⟩ from rfl, hfinds]
  rfl

/-- A path is found where a character of a leaf with that owner stands. -/
theorem Node.pathAt_eq_some_iff {tree : Node} (hfits : tree.Fits) {target : Position} {path : Path} :
    tree.pathAt target = .ok (some path) ↔
      ∃ leaf, (target, leaf) ∈ Leaf.layout Position.start tree.leaves ∧ leaf.owner = path := by
  obtain ⟨found, hfound, hlocated⟩ := Node.pathAt_located hfits target
  rw [hfound]
  constructor
  · intro h
    cases h
    exact hlocated
  · rintro ⟨leaf, hm, rfl⟩
    cases found with
    | none => exact absurd hm (hlocated leaf)
    | some path =>
      -- at most one character stands at the target
      obtain ⟨other, hother, rfl⟩ := hlocated
      have heq := congrArg Prod.snd (Leaf.eq_of_mem_layout hm hother rfl)
      rw [show leaf = other from heq]

/-- Nothing is found where no character stands. -/
theorem Node.pathAt_eq_none_of_free {tree : Node} (hfits : tree.Fits) {target : Position}
    (h : ∀ leaf, (target, leaf) ∉ Leaf.layout Position.start tree.leaves) :
    tree.pathAt target = .ok none := by
  obtain ⟨found, hfound, hlocated⟩ := Node.pathAt_located hfits target
  cases found with
  | none => exact hfound
  | some path =>
    obtain ⟨leaf, hm, -⟩ := hlocated
    exact absurd hm (h leaf)

/-- Something is found exactly at the occupied positions. -/
theorem Node.exists_pathAt_iff {tree : Node} (hfits : tree.Fits) (target : Position) :
    (∃ path, tree.pathAt target = .ok (some path)) ↔
      target ∈ (Leaf.layout Position.start tree.leaves).map (·.1) := by
  rw [List.mem_map]
  constructor
  · rintro ⟨path, hpath⟩
    obtain ⟨leaf, hm, -⟩ := (Node.pathAt_eq_some_iff hfits).mp hpath
    exact ⟨_, hm, rfl⟩
  · rintro ⟨⟨_, leaf⟩, hm, rfl⟩
    exact ⟨leaf.owner, (Node.pathAt_eq_some_iff hfits).mpr ⟨leaf, hm, rfl⟩⟩

/-- The path of a leaf leads to its owner. -/
theorem Node.reach_owner {tree : Node} (hd : tree.Distinct) {leaf : Leaf} (h : leaf ∈ tree.leaves) :
    ∃ n, tree.reach leaf.owner = some n ∧ n.Owns (.constant leaf.text) := by
  rw [← Node.filterMap_trail PathEvent.picks_leaf?, List.mem_filterMap] at h
  obtain ⟨e, he, hleaf⟩ := h
  cases e with
  | enter path item => cases hleaf
  | leave path item => cases hleaf
  | leaf path text =>
    cases hleaf
    obtain ⟨q, n, hpath, hreach, howns⟩ := Node.reach_of_mem_trailFrom tree hd he
    refine ⟨n, ?_, howns⟩
    rw [show path = q from hpath]
    exact hreach

/-- **The node at a position is the owner of the character there.** The search finds a path exactly where
    the layout has a character, and then the owner of the leaf of that character. The path leads to a
    node, which is the leaf itself if it is a constant, and otherwise the composite that the text
    belongs to. -/
theorem Node.pathAt_eq_owner (tree : Node) (hd : tree.Distinct) (hfits : tree.Fits)
    (target : Position) :
    (∀ path, tree.pathAt target = .ok (some path) ↔
      ∃ leaf, (target, leaf) ∈ Leaf.layout Position.start tree.leaves ∧ leaf.owner = path) ∧
    ((∀ leaf, (target, leaf) ∉ Leaf.layout Position.start tree.leaves) →
      tree.pathAt target = .ok none ∧ tree.nodeAt target = .ok none) ∧
    ∀ leaf, (target, leaf) ∈ Leaf.layout Position.start tree.leaves →
      ∃ n, tree.descend leaf.owner = .ok n ∧ tree.nodeAt target = .ok (some n) ∧
        (n = .constant leaf.text ∨
          ∃ kind slots, n = .composite kind slots ∧ Slot.text leaf.text ∈ slots) := by
  refine ⟨fun path => Node.pathAt_eq_some_iff hfits, ?_, ?_⟩
  · intro hfree
    have hnone := Node.pathAt_eq_none_of_free hfits hfree
    refine ⟨hnone, ?_⟩
    rw [Node.nodeAt, hnone]
    rfl
  · intro leaf hm
    obtain ⟨n, hreach, howns⟩ := Node.reach_owner hd (Leaf.leaf_mem_of_mem_layout hm)
    have hdescend : tree.descend leaf.owner = .ok n := Node.descend_eq_ok_iff.mpr hreach
    refine ⟨n, hdescend, ?_, ?_⟩
    · rw [Node.nodeAt, (Node.pathAt_eq_some_iff hfits).mpr ⟨leaf, hm, rfl⟩]
      show Except.ok (tree.descend leaf.owner).toOption = _
      rw [hdescend]
      rfl
    · rcases howns with rfl | ⟨kind, slots, text, rfl, hitem, htext⟩
      · exact Or.inl rfl
      · injection hitem with heq
        exact Or.inr ⟨kind, slots, rfl, heq ▸ htext⟩

/-- The closing bracket stands on the second line and belongs to the composite. -/
theorem Node.pathAt_eq_owner_call :
    let tree : Node := .composite "call"
      [.field "name" (.constant "f"), .text "(\r\n", .field "args" (.list [.constant "1"]), .text ")"]
    tree.pathAt ⟨2, 2⟩ = .ok (some []) ∧ tree.nodeAt ⟨2, 2⟩ = .ok (some tree) := by
  intro tree
  have hd : tree.Distinct := by decide
  have hfits : tree.Fits := by decide
  have hm : ((⟨2, 2⟩ : Position), (⟨[], ")"⟩ : Leaf)) ∈ Leaf.layout Position.start tree.leaves := by
    decide
  have h := Node.pathAt_eq_owner tree hd hfits ⟨2, 2⟩
  refine ⟨(h.1 []).mpr ⟨_, hm, rfl⟩, ?_⟩
  obtain ⟨n, hn, hnode, -⟩ := h.2.2 _ hm
  cases hn
  exact hnode

end LosslessTree
