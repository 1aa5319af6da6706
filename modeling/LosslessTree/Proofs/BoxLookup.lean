import LosslessTree.Proofs.Layout
import LosslessTree.Proofs.Trail
import LosslessTree.Resolve.Extent

/-!
# `Proofs.BoxLookup` — the box of a node against the layout

A measurement goes through three parts of the trail of a tree. Ahead of the wanted node it only moves the
cursor: no call there has the wanted path, so nothing opens the box. The call that enters the node opens
it. Inside the node the calls are well nested, so the walk is at least as deep as it was when the box
was opened, and no call there closes it; what the measurement keeps is the last occupied position. The
call that leaves the node is the first at the depth of the opening, closes the box and halts.

`Measure.read` says in one step what any stretch of text does to a measurement, and `Measure.pass`
the same for leaves. All three parts are instances of it.

## Contents
- **Text.** `Measure.read`, `Measure.consume_eq`, `Measure.pass`.
- **Calls.** `Measure.enter_call`, `Measure.passes_ahead`, `Measure.passes_inside`,
  `Measure.run_node`.
- **Trees.** `Node.boxAt?_of_reach`, `Node.boxAt?_of_unreached`.
-/

namespace LosslessTree

/-! ## Steps to the left -/

namespace Position

/-- The last of some columns. -/
theorem getLast?_columns (p : Position) (n : Nat) : (p.columns (n + 1)).getLast? = some (p.shift n) := by
  induction n generalizing p with
  | zero => rw [shift_zero]; rfl
  | succ n ih =>
    rw [columns, List.getLast?_cons, ih, shift_shift, Nat.add_comm 1]
    rfl

/-- A step to the right leaves room for a step back. -/
theorem Room.left_shift {p : Position} {k n : Nat} (h : p.Room (k + 1 + n)) :
    (p.shift (k + 1)).left = .ok (p.shift k) := by
  have hcolumn : p.column + (k + 1 : Nat) - 1 = p.column + k := by omega
  have hroom : p.Room (k + (1 + n)) := h.mono (by omega)
  rw [left, Position.shift, Coordinate.subtract, hcolumn, Coordinate.settle_eq_ok hroom.inRange_column]
  rfl

/-- Reading leaves uses up as much room as their texts have characters. -/
theorem Room.cursorAfter_leaves {p : Position} {leaves : List Leaf} {n : Nat}
    (h : p.Room ((Leaf.texts leaves).length + n)) : (Leaf.cursorAfter p leaves).Room n := by
  induction leaves generalizing p with
  | nil => exact h.mono (Nat.le_add_left n _)
  | cons leaf rest ih =>
    rw [Leaf.texts, String.length_append, ← String.length_toList, Nat.add_assoc] at h
    exact ih h.cursorAfter

end Position

/-- The box of leaves laid out from a position on: up to the last position that they occupy, or of
    that one position if they occupy none. -/
def Leaf.extent (p : Position) (leaves : List Leaf) : BoundingBox :=
  ⟨p, ((Leaf.layout p leaves).map (·.1)).getLast?.getD p⟩

namespace Measure

variable {m : Measure}

/-! ## Text -/

/-- The measurement after a text that occupies `places` and leaves the cursor at `final`. -/
def read (m : Measure) (places : List Position) (final : Position) : Measure :=
  { m with
    cursor := final
    last := places.getLast?.getD m.last
    inked := m.inked || (m.opened.isSome && !places.isEmpty) }

theorem read_nil (m : Measure) : m.read [] m.cursor = m := by
  simp [read]

theorem read_read (m : Measure) (xs ys : List Position) (p q : Position) :
    (m.read xs p).read ys q = m.read (xs ++ ys) q := by
  cases xs <;> cases ys <;> simp [read, List.getLast?_cons]

theorem consume_newline {mark : Newline} {rest : List Run} {n : Nat} (h : m.cursor.Room (1 + n)) :
    m.consume (.newline mark :: rest) = (m.read [] m.cursor.nextLine).consume rest := by
  have hmoved : { m with cursor := m.cursor.nextLine } = m.read [] m.cursor.nextLine := by
    simp [read]
  rw [← hmoved, consume, h.nextLine.1]
  rfl

/-- A step back from the end of a stretch leads to its last column. -/
theorem read_columns (m : Measure) (k : Nat) :
    m.read (m.cursor.columns (k + 1)) (m.cursor.shift (k + 1)) =
      { m with
        cursor := m.cursor.shift (k + 1)
        last := m.cursor.shift k
        inked := m.inked || m.opened.isSome } := by
  rw [read, Position.getLast?_columns]
  simp [Position.columns]

theorem consume_stretch {chars : List Char} {rest : List Run} {n : Nat}
    (h : m.cursor.Room (chars.length + n)) :
    m.consume (.stretch chars :: rest) =
      (m.read (m.cursor.columns chars.length) (m.cursor.shift chars.length)).consume rest := by
  cases chars with
  | nil => rw [consume, List.length_nil, Position.shift_zero, Position.columns, read_nil]
  | cons c chars =>
    rw [List.length_cons, read_columns, consume, h.shift.1]
    show ((m.cursor.shift (chars.length + 1)).left.bind fun last => consume rest { m with
      cursor := m.cursor.shift (c :: chars).length
      last := last
      inked := m.inked || m.opened.isSome }) = _
    rw [h.left_shift]
    rfl

/-- The runs of a text are read as their positions say. -/
theorem consume_eq {runs : List Run} {n : Nat} (h : m.cursor.Room (Run.size runs + n)) :
    m.consume runs = .ok (m.read (Run.occupied m.cursor runs) (Run.cursorAfter m.cursor runs)) := by
  induction runs generalizing m with
  | nil => rw [consume, Run.occupied, Run.cursorAfter, read_nil]
  | cons run rest ih =>
    cases run with
    | newline mark =>
      have hroom := h.of_newline.nextLine.2
      rw [consume_newline h.of_newline, ih hroom, read_read]
      rfl
    | stretch chars =>
      have hroom := h.of_stretch.shift.2
      rw [consume_stretch h.of_stretch, ih hroom, read_read]
      rfl

/-- The measurement after leaves. -/
def pass (m : Measure) (leaves : List Leaf) : Measure :=
  m.read ((Leaf.layout m.cursor leaves).map (·.1)) (Leaf.cursorAfter m.cursor leaves)

theorem pass_nil (m : Measure) : m.pass [] = m := m.read_nil

theorem pass_append (m : Measure) (xs ys : List Leaf) : m.pass (xs ++ ys) = (m.pass xs).pass ys := by
  rw [pass, pass, pass, read_read, Leaf.layout_append, Leaf.cursorAfter_append, List.map_append]
  rfl

/-- One leaf is read by its runs. -/
theorem consume_leaf (leaf : Leaf) {n : Nat} (h : m.cursor.Room (leaf.text.length + n)) :
    m.consume (Text.runs leaf.text) = .ok (m.pass [leaf]) := by
  rw [← Run.size_runs] at h
  rw [consume_eq h, Text.runs, Run.occupied_cut, Run.cursorAfter_cut, pass]
  simp [Leaf.layout, Leaf.cursorAfter, Function.comp_def]

/-- Room for leaves is room for the first of them and, after these, for the others. -/
theorem room_pass {xs ys : List Leaf} {n : Nat}
    (h : m.cursor.Room ((Leaf.texts (xs ++ ys)).length + n)) :
    m.cursor.Room ((Leaf.texts xs).length + ((Leaf.texts ys).length + n)) ∧
      (m.pass xs).cursor.Room ((Leaf.texts ys).length + n) := by
  rw [Leaf.texts_append, String.length_append, Nat.add_assoc] at h
  exact ⟨h, h.cursorAfter_leaves⟩

/-! ## Calls -/

theorem enter_of_ne {wanted path : Path} (h : path ≠ wanted) :
    m.enter wanted path = { m with depth := m.depth + 1 } := by
  simp [enter, h]

theorem enter_of_opened {wanted path : Path} (h : m.opened.isSome) :
    m.enter wanted path = { m with depth := m.depth + 1 } := by
  simp [enter, Option.isSome_iff_ne_none.mp h]

/-- The measurement in which the box has been opened. -/
def opening (m : Measure) : Measure :=
  { m with depth := m.depth + 1, opened := some (m.cursor, m.depth + 1) }

theorem enter_wanted {wanted : Path} (h : m.opened = none) : m.enter wanted wanted = m.opening := by
  simp [enter, opening, h]

theorem cursor_enter (m : Measure) (wanted path : Path) : (m.enter wanted path).cursor = m.cursor := by
  unfold enter
  simp only
  split <;> rfl

/-- An item other than the one that opened the box is left without a further effect. -/
theorem leave_of_ne (h : ∀ p, m.opened = some (p, m.depth) → m.closed.isSome) :
    m.leave = ({ m with depth := m.depth - 1 }, .proceed) := by
  unfold leave
  simp only
  split
  · next p depth hopened hclosed =>
    have hdepth : depth ≠ m.depth := by
      intro heq
      have hsome := h p (heq ▸ hopened)
      rw [hclosed] at hsome
      cases hsome
    rw [if_neg hdepth]
  · rfl

/-- The item that opened the box closes it, at the last position read since or where it was opened. -/
theorem leave_opening (hclosed : m.closed = none) (hinked : m.inked = false) (leaves : List Leaf) :
    ∃ final, (m.opening.pass leaves).leave = (final, .halt) ∧ final.closed.isSome ∧
      final.box? = some (Leaf.extent m.cursor leaves) := by
  refine ⟨{ m.opening.pass leaves with
    depth := m.depth
    closed := some (if (m.opening.pass leaves).inked then (m.opening.pass leaves).last else m.cursor) },
    ?_, rfl, ?_⟩
  · unfold leave
    simp [pass, read, opening, hclosed]
  · show some (BoundingBox.mk m.cursor _) = _
    -- `last` may be left over from before the item; it counts only if something was read since
    simp only [Leaf.extent, pass, read, opening, hinked, Option.isSome_some, Bool.true_and,
      Bool.false_or]
    cases ((Leaf.layout m.cursor leaves).map (·.1)) with
    | nil => rfl
    | cons x xs => simp [List.getLast?_cons]

/-- Entering an item reads its text if the item is a leaf. -/
theorem enter_call (wanted : Path) {path : Path} {item : Node} {n : Nat}
    (h : m.cursor.Room
      ((Leaf.texts ([PathEvent.enter path item].filterMap PathEvent.entered?)).length + n)) :
    (strategy wanted).call (.enter path item) (.ok m) =
      (.ok ((m.enter wanted path).pass ([PathEvent.enter path item].filterMap PathEvent.entered?)),
        .proceed) := by
  cases item with
  | constant text =>
    have hleaf : [PathEvent.enter path (.constant text)].filterMap PathEvent.entered? =
      [⟨path, text⟩] := rfl
    rw [hleaf, Leaf.texts, String.length_append, Nat.add_assoc, ← cursor_enter m wanted path] at h
    show attempt (fun m => do
      return (← (m.enter wanted path).consume (Text.runs text), Flow.proceed)) (.ok m) = _
    rw [attempt, hleaf, consume_leaf ⟨path, text⟩ h]
    rfl
  | list items =>
    show _ = (Except.ok ((m.enter wanted path).pass []), Flow.proceed)
    rw [pass_nil]
    rfl
  | composite kind slots =>
    show _ = (Except.ok ((m.enter wanted path).pass []), Flow.proceed)
    rw [pass_nil]
    rfl

theorem leave_call (wanted path : Path) (item : Node) :
    (strategy wanted).call (.leave path item) (.ok m) = (.ok m.leave.1, m.leave.2) := rfl

/-- **Away from the node.** Calls with other paths move the cursor over their leaves and open nothing. -/
theorem passes_ahead {wanted : Path} {es : List PathEvent} {n : Nat}
    (hpaths : ∀ e ∈ es, e.path ≠ wanted) (hopened : m.opened = none)
    (h : m.cursor.Room ((Leaf.texts (es.filterMap PathEvent.entered?)).length + n)) :
    ∃ depth, Calls.Passes (strategy wanted).call es (.ok m)
      (.ok { m.pass (es.filterMap PathEvent.entered?) with depth }) := by
  induction es generalizing m with
  | nil =>
    refine ⟨m.depth, ?_⟩
    rw [List.filterMap_nil, pass_nil]
    exact .nil
  | cons e es ih =>
    have hrest : ∀ e ∈ es, e.path ≠ wanted := fun e he => hpaths e (List.mem_cons_of_mem _ he)
    cases e with
    | enter path item =>
      rw [← List.singleton_append, List.filterMap_append] at h ⊢
      obtain ⟨hfirst, hroom⟩ := room_pass h
      have hne : path ≠ wanted := hpaths _ (List.mem_cons_self ..)
      have hcall := enter_call wanted hfirst
      rw [enter_of_ne hne] at hcall
      obtain ⟨depth, hpasses⟩ := ih (m := { m with depth := m.depth + 1 }.pass _) hrest hopened hroom
      refine ⟨depth, .cons hcall ?_⟩
      rw [pass_append]
      exact hpasses
    | leaf path text =>
      obtain ⟨depth, hpasses⟩ := ih hrest hopened h
      exact ⟨depth, .cons rfl hpasses⟩
    | leave path item =>
      have hleave : m.leave = ({ m with depth := m.depth - 1 }, .proceed) := leave_of_ne (by
        intro p hp
        rw [hopened] at hp
        cases hp)
      obtain ⟨depth, hpasses⟩ := ih (m := { m with depth := m.depth - 1 }) hrest hopened h
      refine ⟨depth, .cons ?_ hpasses⟩
      rw [leave_call, hleave]

/-- **Inside the node.** Well nested calls move the cursor over their leaves, are back at the depth at
    which they began, and close nothing. -/
theorem passes_inside (wanted path : Path) {es : List Event} (hb : Event.Balanced es)
    {topLeft : Position} {depth n : Nat} (hopened : m.opened = some (topLeft, depth))
    (hdepth : depth ≤ m.depth)
    (h : m.cursor.Room
      ((Leaf.texts ((Event.trail path es).filterMap PathEvent.entered?)).length + n)) :
    Calls.Passes (strategy wanted).call (Event.trail path es) (.ok m)
      (.ok (m.pass ((Event.trail path es).filterMap PathEvent.entered?))) := by
  induction hb generalizing m path n with
  | nil =>
    rw [Event.trail, List.filterMap_nil, pass_nil]
    exact .nil
  | leaf _ ih => exact .cons rfl (ih path hopened hdepth h)
  | @item item key inside es _ _ ihi ihe =>
    -- the path that is kept plays no part while the box is open
    obtain ⟨after, hafter⟩ : ∃ after, inside.foldl Event.pathAfter (path ++ key.toList) = after :=
      ⟨_, rfl⟩
    have htrail : Event.trail path (.enter item key :: (inside ++ .leave item key :: es)) =
        [.enter (path ++ key.toList) item] ++ (Event.trail (path ++ key.toList) inside ++
          .leave after item :: Event.trail (Event.pathAfter after (.leave item key)) es) := by
      rw [Event.trail, Event.pathAfter, Event.trail_append, hafter]
      rfl
    have hleft : PathEvent.entered? (.leave after item) = none := rfl
    rw [htrail, List.filterMap_append, List.filterMap_append, List.filterMap_cons_none hleft] at h ⊢
    obtain ⟨hfirst, hroom⟩ := room_pass h
    obtain ⟨hinside, hlater⟩ := room_pass hroom
    have henter := enter_call wanted hfirst
    rw [enter_of_opened (by rw [hopened]; rfl)] at henter
    rw [pass_append, pass_append]
    have hin := ihi (m := { m with depth := m.depth + 1 }.pass _) (path ++ key.toList) hopened
      (Nat.le_succ_of_le hdepth) hinside
    have hout := ihe (m := (m.pass _).pass _) (Event.pathAfter after (.leave item key)) hopened hdepth
      hlater
    refine .cons henter (hin.append (.cons ?_ hout))
    rw [leave_call, leave_of_ne]
    · rfl
    · -- the item is deeper than the one that opened the box
      intro p hp
      have heq : some (topLeft, depth) = some (p, m.depth + 1) := hopened.symm.trans hp
      injection heq with heq
      injection heq with _ heq
      omega

/-- **The node itself.** Its calls open the box at the cursor and close it at the last position that the
    leaves of the node occupy, or at the cursor if they occupy none. The calls behind are not made. -/
theorem run_node {wanted : Path} {node : Node} {n : Nat} (hopened : m.opened = none)
    (hclosed : m.closed = none) (hinked : m.inked = false)
    (h : m.cursor.Room ((Leaf.texts (node.leavesFrom wanted)).length + n)) (behind : List PathEvent) :
    ∃ final : Measure,
      Calls.run (strategy wanted).call (node.trailFrom wanted ++ behind) (.ok m) = .ok final ∧
      final.closed.isSome ∧
      final.box? = some (Leaf.extent m.cursor (node.leavesFrom wanted)) := by
  obtain ⟨inside, hb, htrail⟩ := Node.trailFrom_bracket wanted node
  have hleaves := Node.filterMap_trailFrom PathEvent.picks_entered? wanted node
  have hleft : PathEvent.entered? (.leave wanted node) = none := rfl
  rw [htrail, ← List.singleton_append, List.filterMap_append, List.filterMap_append,
    List.filterMap_cons_none hleft, List.filterMap_nil, List.append_nil] at hleaves
  rw [← hleaves] at h ⊢
  obtain ⟨hfirst, hroom⟩ := room_pass h
  have henter := enter_call wanted hfirst
  rw [enter_wanted hopened] at henter
  have hinside := passes_inside wanted wanted hb (m := m.opening.pass _) rfl (Nat.le_refl _) hroom
  rw [← pass_append] at hinside
  obtain ⟨final, hleave, hsome, hbox⟩ := leave_opening hclosed hinked
    ([PathEvent.enter wanted node].filterMap PathEvent.entered? ++
      (Event.trail wanted inside).filterMap PathEvent.entered?)
  refine ⟨final, ?_, hsome, hbox⟩
  rw [htrail, List.cons_append, List.append_assoc, Calls.run_cons_proceed henter, hinside.run_append]
  apply Calls.run_cons_halt
  rw [leave_call, hleave]

/-- Once the box is closed, or if it was never opened, leaving items changes nothing but the depth. -/
theorem after_leaves (wanted : Path) {es : List PathEvent}
    (hes : ∀ e ∈ es, ∃ path item, e = PathEvent.leave path item)
    (h : m.opened = none ∨ m.closed.isSome) :
    ∃ depth, Calls.after (strategy wanted).call es (.ok m) = .ok { m with depth } := by
  induction es generalizing m with
  | nil => exact ⟨m.depth, rfl⟩
  | cons e es ih =>
    obtain ⟨path, item, rfl⟩ := hes e (List.mem_cons_self ..)
    have hleave : m.leave = ({ m with depth := m.depth - 1 }, .proceed) := leave_of_ne (by
      intro p hp
      rcases h with h | h
      · rw [h] at hp
        cases hp
      · exact h)
    obtain ⟨depth, hafter⟩ := ih (m := { m with depth := m.depth - 1 })
      (fun e he => hes e (List.mem_cons_of_mem _ he)) h
    refine ⟨depth, ?_⟩
    rw [Calls.after, leave_call, hleave]
    exact hafter

end Measure

/-! ## Trees -/

/-- The calls that leave what is open after the last call of the trail do not change the box. -/
theorem Node.boxAt?_of_run {tree : Node} {path : Path} {m : Measure}
    (hrun : Calls.run (Measure.strategy path).call tree.trail (.ok Measure.start) = .ok m)
    (h : m.opened = none ∨ m.closed.isSome) : tree.boxAt? path = .ok m.box? := by
  obtain ⟨closing, hclosing, hstrategy⟩ := (Measure.strategy path).run_eq tree (.ok Measure.start)
  obtain ⟨depth, hafter⟩ := Measure.after_leaves path hclosing h
  rw [Node.boxAt?, hstrategy, hrun, hafter]
  rfl

/-- The box of a node that the path leads to. -/
theorem Node.boxAt?_of_reach {tree n : Node} {path : Path} (hd : tree.Distinct) (hfits : tree.Fits)
    (h : tree.reach path = some n) :
    tree.boxAt? path = .ok (some (Leaf.extent
      (Leaf.cursorAfter Position.start (tree.leavesBefore Path.root path)) (n.leavesFrom path))) := by
  obtain ⟨ahead, behind, htrail, hleaves, hpaths⟩ := Node.trailFrom_split hd h Path.root
  obtain ⟨later, hsplit, -⟩ := Node.leaves_split hd h
  have hroom := hfits.room
  rw [hsplit, Leaf.texts_append, String.length_append, Leaf.texts_append, String.length_append,
    ← hleaves] at hroom
  -- ahead of the node no path goes through it, so none is its own
  have hne : ∀ e ∈ ahead, e.path ≠ path := by
    intro e he heq
    exact hpaths e (List.mem_append_left _ he) (heq ▸ List.prefix_refl _)
  obtain ⟨depth, hahead⟩ := Measure.passes_ahead (m := Measure.start) hne rfl hroom
  obtain ⟨final, hrun, hclosed, hbox⟩ := Measure.run_node
    (m := { Measure.start.pass (ahead.filterMap PathEvent.entered?) with depth }) rfl rfl rfl
    hroom.cursorAfter_leaves behind
  have htree : Calls.run (Measure.strategy path).call tree.trail (.ok Measure.start) = .ok final := by
    rw [Node.trail, htrail, hahead.run_append]
    exact hrun
  rw [Node.boxAt?_of_run htree (Or.inr hclosed), hbox, hleaves]
  rfl

/-- No box is found for a path that leads nowhere. -/
theorem Node.boxAt?_of_unreached {tree : Node} {path : Path} (hd : tree.Distinct) (hfits : tree.Fits)
    (h : tree.reach path = none) : tree.boxAt? path = .ok none := by
  -- every path of the trail leads to a node
  have hne : ∀ e ∈ tree.trail, e.path ≠ path := by
    intro e he heq
    obtain ⟨q, n, hpath, hreach, -⟩ := Node.reach_of_mem_trailFrom tree hd he
    have hq : q = path := hpath.symm.trans heq
    rw [hq, h] at hreach
    cases hreach
  have hroom := hfits.room
  rw [← Node.filterMap_trail PathEvent.picks_entered?] at hroom
  obtain ⟨depth, htrail⟩ := Measure.passes_ahead (m := Measure.start) (n := 0) hne rfl hroom
  have hrun := htrail.run_append []
  rw [List.append_nil] at hrun
  rw [Node.boxAt?_of_run hrun (Or.inl rfl)]
  rfl

/-- The box of a node that the path leads to, as it is reported. -/
theorem Node.boxAt_of_reach {tree n : Node} {path : Path} (hd : tree.Distinct) (hfits : tree.Fits)
    (h : tree.reach path = some n) :
    tree.boxAt path = .ok (Leaf.extent
      (Leaf.cursorAfter Position.start (tree.leavesBefore Path.root path)) (n.leavesFrom path)) := by
  rw [Node.boxAt, Node.boxAt?_of_reach hd hfits h]

/-- A box is refused exactly for the paths that descending refuses. -/
theorem Node.boxAt_eq_noSuchPath_iff {tree : Node} {path : Path} (hd : tree.Distinct)
    (hfits : tree.Fits) :
    tree.boxAt path = .error (.noSuchPath path) ↔ ∃ e, tree.descend path = .error e := by
  rw [Node.descend_eq_error_iff]
  cases h : tree.reach path with
  | none =>
    rw [Node.boxAt, Node.boxAt?_of_unreached hd hfits h]
    exact ⟨fun _ => rfl, fun _ => rfl⟩
  | some n =>
    rw [Node.boxAt_of_reach hd hfits h]
    exact ⟨fun hbox => (by cases hbox), fun hnone => (by cases hnone)⟩

/-- **The box of a node is determined by the text in front of it and its own.** A path has no box exactly
    when descending along it fails. Otherwise the rendered text is that of the leaves walked in front
    of the node, that of the node and that of the leaves behind it; the box begins at the cursor
    after the leaves in front, and ends at the last position which the leaves of the node occupy from
    there on, or where it begins. The box of a whole tree is that of the root path, and begins at line 1,
    column 1. -/
theorem Node.boxAt_eq_extent (tree : Node) (hd : tree.Distinct) (hfits : tree.Fits) (path : Path) :
    (tree.boxAt path = .error (.noSuchPath path) ↔ ∃ e, tree.descend path = .error e) ∧
    (∀ n, tree.descend path = .ok n →
      let before := tree.leavesBefore Path.root path
      (∃ ahead later, tree.trail = ahead ++ (n.trailFrom path ++ later) ∧
        ahead.filterMap PathEvent.entered? = before) ∧
      (∃ behind, tree.leaves = before ++ (n.leavesFrom path ++ behind) ∧
        tree.render = Leaf.texts before ++ (n.render ++ Leaf.texts behind)) ∧
      tree.boxAt path =
        .ok (Leaf.extent (Leaf.cursorAfter Position.start before) (n.leavesFrom path))) ∧
    ∃ box : BoundingBox, tree.boxAt? Path.root = .ok (some box) ∧ tree.box = .ok box ∧
      tree.boxAt Path.root = .ok box ∧ box.topLeft = ⟨1, 1⟩ := by
  refine ⟨Node.boxAt_eq_noSuchPath_iff hd hfits, ?_, ?_⟩
  · intro n hn before
    have hreach := Node.descend_eq_ok_iff.mp hn
    obtain ⟨ahead, later, htrail, hleaves, -⟩ := Node.trailFrom_split hd hreach Path.root
    obtain ⟨behind, hsplit, -⟩ := Node.leaves_split hd hreach
    refine ⟨⟨ahead, later, htrail, hleaves⟩, ⟨behind, hsplit, ?_⟩, Node.boxAt_of_reach hd hfits hreach⟩
    rw [← Node.texts_leavesFrom Path.root tree, ← Node.texts_leavesFrom path n, ← Leaf.texts_append,
      ← Leaf.texts_append, ← hsplit]
    rfl
  · have hroot := Node.boxAt?_of_reach hd hfits (show tree.reach Path.root = some tree from rfl)
    refine ⟨_, hroot, ?_, Node.boxAt_of_reach hd hfits rfl, rfl⟩
    rw [Node.box, hroot]
    rfl

/-- A line end in front of a field, one inside it, and an empty list behind: the first box ends in front
    of the line end that its own text has, the second is where the cursor is, and a third path has
    none. -/
theorem Node.boxAt_eq_extent_lines :
    let tree : Node := .composite "pair"
      [.text "\r\n", .field "left" (.constant "ab\n"), .field "right" (.list [])]
    tree.boxAt [.name "left"] = .ok ⟨⟨2, 1⟩, ⟨2, 2⟩⟩ ∧
      tree.boxAt [.name "right"] = .ok ⟨⟨3, 1⟩, ⟨3, 1⟩⟩ ∧
      tree.boxAt [.index 0] = .error (.noSuchPath [.index 0]) := by
  intro tree
  have hd : tree.Distinct := by decide
  have hfits : tree.Fits := by decide
  refine ⟨?_, ?_, ?_⟩
  · exact ((Node.boxAt_eq_extent tree hd hfits [.name "left"]).2.1 _ rfl).2.2
  · exact ((Node.boxAt_eq_extent tree hd hfits [.name "right"]).2.1 _ rfl).2.2
  · exact (Node.boxAt_eq_extent tree hd hfits [.index 0]).1.mpr ⟨_, rfl⟩

end LosslessTree
