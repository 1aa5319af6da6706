import LosslessTree.Proofs.Ancestors

/-!
# `Proofs.LeafCuts` — when the cut into leaves shows in positions

Lines are counted leaf by leaf. A text that is cut in two is laid out like the whole text unless the cut
goes through a line end, between its CR and its LF; then the second part stands one line further down, at
the same columns (`Text.occupied_append`).

For a tree this means: the positions of its characters are those of the rendered text taken as one
leaf, as long as no line end that is cut in two comes in front of a character. Each such line end
(`Leaf.tornEnds` counts them) moves all that follows one line down, so the last character, and with it
the end of the box, is that many lines off. A line end that is cut in two behind the last character does
not show.

## Contents
- **Moving down.** `Position.down`, and the layout of a text further down.
- **Two parts.** `Text.Tears`, `Text.overlap`, `Text.occupied_append`.
- **Leaves.** `Leaf.tornEnds`, `Leaf.layout_of_untorn`, `Leaf.getLast?_layout`.
- **Trees.** `Node.TearsLineEnd`, and the two resolvers on a tree and on its text.
-/

namespace LosslessTree

/-! ## Moving down -/

namespace Position

/-- The position `k` lines further down. -/
def down (p : Position) (k : Int) : Position := ⟨p.line + k, p.column⟩

theorem down_zero (p : Position) : p.down 0 = p := by
  simp [down]

theorem down_down (p : Position) (j k : Int) : (p.down j).down k = p.down (j + k) := by
  simp [down, Int.add_assoc]

theorem nextLine_down (p : Position) (k : Int) : (p.down k).nextLine = p.nextLine.down k := by
  simp only [down, nextLine, Position.mk.injEq, and_true]
  omega

theorem shift_down (p : Position) (k : Int) (n : Nat) : (p.down k).shift n = (p.shift n).down k := rfl

theorem lt_down (p : Position) {k : Int} (h : 0 < k) : p < p.down k := by
  left
  simp only [down]
  omega

end Position

namespace Text

/-- Read from further down, a text stands further down. -/
theorem occupied_down (p : Position) (k : Int) (cs : List Char) :
    occupied (p.down k) cs = (occupied p cs).map (·.down k) := by
  fun_induction occupied p cs with
  | case1 p => rfl
  | case2 p rest ih => rw [occupied, Position.nextLine_down, ih]
  | case3 p rest hlf ih =>
    rw [occupied, Position.nextLine_down, ih]
    exact hlf
  | case4 p rest ih => rw [occupied, Position.nextLine_down, ih]
  | case5 p c rest hcrlf hcr hlf ih =>
    rw [occupied, Position.shift_down, ih, List.map_cons]
    · exact hcrlf
    · exact hcr
    · exact hlf

/-! ## A text in two parts -/

/-- The cut between two texts goes through a line end. -/
def Tears (a b : List Char) : Prop := a.getLast? = some '\r' ∧ b.head? = some '\n'

instance (a b : List Char) : Decidable (Tears a b) := inferInstanceAs (Decidable (_ ∧ _))

/-- The number of line ends that the cut between two texts goes through. -/
def overlap (a b : List Char) : Nat := if Tears a b then 1 else 0

theorem Tears.cons {a b : List Char} (c : Char) (h : Tears a b) : Tears (c :: a) b := by
  refine ⟨?_, h.2⟩
  simp [List.getLast?_cons, h.1]

/-- A text without a torn line end is read part by part. -/
theorem append_of_not_tears {a b : List Char} (h : ¬ Tears a b) (p : Position) :
    occupied p (a ++ b) = occupied p a ++ occupied (cursorAfter p a) b ∧
      cursorAfter p (a ++ b) = cursorAfter (cursorAfter p a) b := by
  fun_induction cursorAfter p a with
  | case1 p => exact ⟨rfl, rfl⟩
  | case2 p rest ih => exact ih fun hrest => h ((hrest.cons _).cons _)
  | case3 p rest hlf ih =>
    -- the CR is not completed to a pair by what comes behind
    have hnext : ∀ r, rest ++ b = '\n' :: r → False := by
      intro r hr
      cases rest with
      | nil => exact h ⟨rfl, by rw [show b = '\n' :: r from hr]; rfl⟩
      | cons c cs =>
        injection hr with hc hr
        exact hlf cs (by rw [hc])
    rw [List.cons_append, occupied, cursorAfter, occupied]
    · exact ih fun hrest => h (hrest.cons _)
    · exact hlf
    · exact hnext
    · exact hnext
  | case4 p rest ih => exact ih fun hrest => h (hrest.cons _)
  | case5 p c rest hcrlf hcr hlf ih =>
    have hpair : ∀ r, c = '\r' → rest ++ b = '\n' :: r → False := fun _ hc _ => hcr hc
    obtain ⟨hoccupied, hcursor⟩ := ih fun hrest => h (hrest.cons _)
    rw [List.cons_append, occupied, cursorAfter, occupied, List.cons_append]
    · exact ⟨congrArg (p :: ·) hoccupied, hcursor⟩
    · exact hcrlf
    · exact hcr
    · exact hlf
    · exact hpair
    · exact hcr
    · exact hlf
    · exact hpair
    · exact hcr
    · exact hlf

/-- A torn line end counts once in the whole text and twice in its parts. -/
theorem occupied_append_of_tears {a b : List Char} (h : Tears a b) (p : Position) :
    occupied p (a ++ b) = occupied p a ++ occupied ((cursorAfter p a).down (-1)) b := by
  obtain ⟨hcr, hlf⟩ := h
  obtain ⟨front, rfl⟩ := List.getLast?_eq_some_iff.mp hcr
  obtain ⟨rest, rfl⟩ := List.head?_eq_some_iff.mp hlf
  -- in front of the CR the text can be cut
  have hwhole := append_of_not_tears (a := front) (b := '\r' :: '\n' :: rest) (by simp [Tears]) p
  have hpart := append_of_not_tears (a := front) (b := ['\r']) (by simp [Tears]) p
  have hline : (cursorAfter p front).nextLine = ((cursorAfter p (front ++ ['\r'])).down (-1)).nextLine := by
    rw [hpart.2]
    simp only [cursorAfter, Position.nextLine, Position.down, Position.mk.injEq, and_true]
    omega
  rw [List.append_assoc, List.singleton_append, hwhole.1, hpart.1]
  simp only [occupied, hline, List.append_nil]

/-- **A text in two parts.** The second part stands where it would stand in the whole text, or one line
    further down if the cut goes through a line end. -/
theorem occupied_append (p : Position) (a b : List Char) :
    occupied p (a ++ b) =
      occupied p a ++ (occupied (cursorAfter p a) b).map (·.down (-(overlap a b : Int))) := by
  rw [← occupied_down, overlap]
  by_cases h : Tears a b
  · rw [if_pos h]
    exact occupied_append_of_tears h p
  · rw [if_neg h, Int.natCast_zero, Int.neg_zero, Position.down_zero]
    exact (append_of_not_tears h p).1

/-- The text has a character other than line ends. -/
def Inked (cs : List Char) : Prop := ∃ c ∈ cs, c ≠ '\r' ∧ c ≠ '\n'

instance (cs : List Char) : Decidable (Inked cs) :=
  List.decidableBEx (fun c => c ≠ '\r' ∧ c ≠ '\n') cs

theorem occupied_eq_nil_of_not_inked {cs : List Char} (h : ¬ Inked cs) (p : Position) :
    occupied p cs = [] := by
  rw [occupied_eq_nil_iff]
  intro c hc
  by_cases hcr : c = '\r'
  · exact Or.inl hcr
  · by_cases hlf : c = '\n'
    · exact Or.inr hlf
    · exact absurd ⟨c, hc, hcr, hlf⟩ h

theorem exists_last_of_inked {cs : List Char} (h : Inked cs) (p : Position) :
    ∃ x, (occupied p cs).getLast? = some x := by
  obtain ⟨c, hc, hcr, hlf⟩ := h
  apply Option.ne_none_iff_exists'.mp
  intro hnone
  have hnil := List.getLast?_eq_none_iff.mp hnone
  exact (occupied_eq_nil_iff.mp hnil c hc).elim hcr hlf

end Text

/-! ## Leaves -/

namespace Leaf

/-- The number of line ends that are cut in two by a boundary between leaves and that a character other
    than line ends comes behind. -/
def tornEnds : List Leaf → Nat
  | [] => 0
  | leaf :: rest =>
    if Text.Inked (texts rest).toList then
      Text.overlap leaf.text.toList (texts rest).toList + tornEnds rest
    else 0

theorem layout_eq_nil_of_not_inked {leaves : List Leaf} (h : ¬ Text.Inked (texts leaves).toList)
    (p : Position) : layout p leaves = [] := by
  have hnil := Text.occupied_eq_nil_of_not_inked h p
  rw [Text.occupied_eq_nil_iff] at hnil
  exact layout_eq_nil_iff.mpr hnil

theorem toList_texts_cons (leaf : Leaf) (rest : List Leaf) :
    (texts (leaf :: rest)).toList = leaf.text.toList ++ (texts rest).toList := by
  rw [texts, String.toList_append]

/-- Behind the last character it makes no difference where a text is cut. -/
theorem occupied_of_not_inked {rest : List Leaf} (h : ¬ Text.Inked (texts rest).toList) (p : Position)
    (leaf : Leaf) :
    Text.occupied p (texts (leaf :: rest)).toList = Text.occupied p leaf.text.toList := by
  rw [toList_texts_cons, Text.occupied_append, Text.occupied_eq_nil_of_not_inked h, List.map_nil,
    List.append_nil]

/-- **Untorn leaves** occupy what their text does as a whole. -/
theorem layout_of_untorn {leaves : List Leaf} (h : tornEnds leaves = 0) (p : Position) :
    (layout p leaves).map (·.1) = Text.occupied p (texts leaves).toList := by
  induction leaves generalizing p with
  | nil => rfl
  | cons leaf rest ih =>
    rw [map_layout_cons]
    by_cases hinked : Text.Inked (texts rest).toList
    · rw [tornEnds, if_pos hinked, Nat.add_eq_zero_iff] at h
      obtain ⟨hoverlap, hrest⟩ := h
      rw [ih hrest, toList_texts_cons, Text.occupied_append, hoverlap, Int.natCast_zero, Int.neg_zero]
      simp [Position.down_zero]
    · rw [occupied_of_not_inked hinked, layout_eq_nil_of_not_inked hinked, List.map_nil,
        List.append_nil]

/-- **The last character** of leaves stands as many lines below where it stands in the whole text as
    there are torn line ends. -/
theorem getLast?_layout (leaves : List Leaf) (p : Position) :
    ((layout p leaves).map (·.1)).getLast? =
      (Text.occupied p (texts leaves).toList).getLast?.map (·.down (tornEnds leaves)) := by
  induction leaves generalizing p with
  | nil => rfl
  | cons leaf rest ih =>
    rw [map_layout_cons, tornEnds]
    by_cases hinked : Text.Inked (texts rest).toList
    · -- the last character is one of the rest, both ways
      obtain ⟨x, hx⟩ := Text.exists_last_of_inked hinked (Text.cursorAfter p leaf.text.toList)
      have hrest := ih (Text.cursorAfter p leaf.text.toList)
      rw [hx] at hrest
      have hwhole : (Text.occupied p (texts (leaf :: rest)).toList).getLast? =
          some (x.down (-(Text.overlap leaf.text.toList (texts rest).toList : Int))) := by
        rw [toList_texts_cons, Text.occupied_append, List.getLast?_append, List.getLast?_map, hx]
        rfl
      rw [if_pos hinked, List.getLast?_append, hrest, hwhole]
      show some (x.down _) = some ((x.down _).down _)
      rw [Position.down_down]
      congr 2
      omega
    · rw [if_neg hinked, occupied_of_not_inked hinked, layout_eq_nil_of_not_inked hinked, List.map_nil,
        List.append_nil]
      simp [Position.down_zero]

/-- Torn line ends, said by where the leaves are parted. -/
theorem tornEnds_pos_iff {leaves : List Leaf} :
    0 < tornEnds leaves ↔ ∃ before after, leaves = before ++ after ∧
      Text.Tears (texts before).toList (texts after).toList ∧ Text.Inked (texts after).toList := by
  constructor
  · intro h
    induction leaves with
    | nil => cases h
    | cons leaf rest ih =>
      rw [tornEnds] at h
      by_cases hinked : Text.Inked (texts rest).toList
      · rw [if_pos hinked, Text.overlap] at h
        by_cases htears : Text.Tears leaf.text.toList (texts rest).toList
        · refine ⟨[leaf], rest, rfl, ?_, hinked⟩
          rw [texts, texts, String.append_empty]
          exact htears
        · rw [if_neg htears, Nat.zero_add] at h
          obtain ⟨before, after, rfl, ⟨hcr, hlf⟩, hafter⟩ := ih h
          refine ⟨leaf :: before, after, rfl, ⟨?_, hlf⟩, hafter⟩
          rw [toList_texts_cons, List.getLast?_append, hcr]
          rfl
      · rw [if_neg hinked] at h
        cases h
  · rintro ⟨before, after, rfl, ⟨hcr, hlf⟩, hinked⟩
    induction before with
    | nil => cases hcr
    | cons leaf before ih =>
      have hrest : Text.Inked (texts (before ++ after)).toList := by
        obtain ⟨c, hc, hmark⟩ := hinked
        refine ⟨c, ?_, hmark⟩
        rw [texts_append, String.toList_append]
        exact List.mem_append_right _ hc
      rw [List.cons_append, tornEnds, if_pos hrest]
      rw [toList_texts_cons] at hcr
      cases hlast : (texts before).toList.getLast? with
      | some c =>
        -- the CR is in a later leaf
        rw [List.getLast?_append, hlast] at hcr
        have hpos := ih (hlast.trans hcr)
        omega
      | none =>
        -- only empty leaves stand between the CR and the LF
        have hempty : (texts before).toList = [] := List.getLast?_eq_none_iff.mp hlast
        rw [hempty, List.append_nil] at hcr
        have htears : Text.Tears leaf.text.toList (texts (before ++ after)).toList := by
          refine ⟨hcr, ?_⟩
          rw [texts_append, String.toList_append, hempty]
          exact hlf
        rw [Text.overlap, if_pos htears]
        omega

end Leaf

/-! ## Trees -/

namespace Node

/-- Somewhere between its leaves the text of the tree is cut through a line end, and a character other
    than line ends comes behind. Empty leaves may stand between the CR and the LF. -/
def TearsLineEnd (tree : Node) : Prop :=
  ∃ before after, tree.leaves = before ++ after ∧
    (Leaf.texts before).toList.getLast? = some '\r' ∧ (Leaf.texts after).toList.head? = some '\n' ∧
    ∃ c ∈ (Leaf.texts after).toList, c ≠ '\r' ∧ c ≠ '\n'

theorem tearsLineEnd_iff {tree : Node} : tree.TearsLineEnd ↔ 0 < Leaf.tornEnds tree.leaves := by
  rw [Leaf.tornEnds_pos_iff]
  constructor
  · rintro ⟨before, after, hleaves, hcr, hlf, hinked⟩
    exact ⟨before, after, hleaves, ⟨hcr, hlf⟩, hinked⟩
  · rintro ⟨before, after, hleaves, ⟨hcr, hlf⟩, hinked⟩
    exact ⟨before, after, hleaves, hcr, hlf, hinked⟩

instance (tree : Node) : Decidable tree.TearsLineEnd := decidable_of_iff _ tearsLineEnd_iff.symm

/-- The box of a whole tree, for which names need not be distinct. -/
theorem box_eq_extent {tree : Node} (hfits : tree.Fits) :
    tree.box = .ok (Leaf.extent Position.start tree.leaves) := by
  have hroom : Measure.start.cursor.Room ((Leaf.texts (tree.leavesFrom Path.root)).length + 0) :=
    hfits.room
  obtain ⟨final, hrun, hclosed, hbox⟩ := Measure.run_node rfl rfl rfl hroom []
  rw [List.append_nil] at hrun
  rw [Node.box, Node.boxAt?_of_run hrun (Or.inr hclosed), hbox]
  rfl

/-- The characters of a text that is one leaf. -/
theorem map_layout_constant (p : Position) (text : String) :
    (Leaf.layout p (Node.constant text).leaves).map (·.1) = Text.occupied p text.toList := by
  show (Leaf.layout p [⟨Path.root, text⟩]).map (·.1) = _
  rw [Leaf.map_layout_cons, Leaf.layout, List.map_nil, List.append_nil]

/-- Where nothing is torn, the positions of a tree are those of its text. -/
theorem map_layout_of_untorn {tree : Node} (h : ¬ tree.TearsLineEnd) :
    (Leaf.layout Position.start tree.leaves).map (·.1) =
      (Leaf.layout Position.start (Node.constant tree.render).leaves).map (·.1) := by
  rw [tearsLineEnd_iff, Nat.not_lt, Nat.le_zero] at h
  rw [Leaf.layout_of_untorn h, map_layout_constant, Node.leaves, Node.texts_leavesFrom]

/-- Where a line end is torn, the last character of a tree stands below all that its text occupies. -/
theorem exists_last_of_torn {tree : Node} (h : tree.TearsLineEnd) :
    ∃ x y, ((Leaf.layout Position.start tree.leaves).map (·.1)).getLast? = some x ∧
      ((Leaf.layout Position.start (Node.constant tree.render).leaves).map (·.1)).getLast? = some y ∧
      y < x := by
  have htext : (Leaf.texts tree.leaves).toList = tree.render.toList := by
    rw [Node.leaves, Node.texts_leavesFrom]
  have hinked : Text.Inked tree.render.toList := by
    obtain ⟨before, after, hleaves, -, -, c, hc, hmark⟩ := h
    refine ⟨c, ?_, hmark⟩
    rw [← htext, hleaves, Leaf.texts_append, String.toList_append]
    exact List.mem_append_right _ hc
  obtain ⟨y, hy⟩ := Text.exists_last_of_inked hinked Position.start
  refine ⟨y.down (Leaf.tornEnds tree.leaves), y, ?_, ?_, ?_⟩
  · rw [Leaf.getLast?_layout, htext, hy]
    rfl
  · rw [map_layout_constant, hy]
  · have hpos := tearsLineEnd_iff.mp h
    exact y.lt_down (by omega)

/-- **A tree and its text.** Unless a line end is torn in front of some character, a position resolves in
    a tree exactly if it does in the rendered text taken as one constant, and the two have the same
    box. If one is torn, both fail: some position resolves in the tree only, and the boxes differ. -/
theorem resolves_as_text_unless_torn (tree : Node) (hfits : tree.Fits) :
    let whole := Node.constant tree.render
    (¬ tree.TearsLineEnd →
      (∀ target, ∃ found found', tree.pathAt target = .ok found ∧ whole.pathAt target = .ok found' ∧
        (found.isSome ↔ found'.isSome)) ∧
      ∃ box, tree.box = .ok box ∧ whole.box = .ok box) ∧
    (tree.TearsLineEnd →
      (∃ target path, tree.pathAt target = .ok (some path) ∧ whole.pathAt target = .ok none) ∧
      ∃ box box', tree.box = .ok box ∧ whole.box = .ok box' ∧ box ≠ box') := by
  intro whole
  have hwhole : whole.Fits := hfits
  refine ⟨?_, ?_⟩
  · intro huntorn
    have hplaces := map_layout_of_untorn huntorn
    refine ⟨?_, ?_⟩
    · intro target
      obtain ⟨found, hfound, -⟩ := Node.pathAt_located hfits target
      obtain ⟨found', hfound', -⟩ := Node.pathAt_located hwhole target
      refine ⟨found, found', hfound, hfound', ?_⟩
      have hiff := exists_pathAt_iff hfits target
      rw [hplaces, ← exists_pathAt_iff hwhole, hfound, hfound'] at hiff
      simpa [Option.isSome_iff_exists] using hiff
    · refine ⟨_, box_eq_extent hfits, ?_⟩
      rw [box_eq_extent hwhole, Leaf.extent, Leaf.extent, hplaces]
  · intro htorn
    obtain ⟨x, y, hx, hy, hlt⟩ := exists_last_of_torn htorn
    refine ⟨?_, _, _, box_eq_extent hfits, box_eq_extent hwhole, ?_⟩
    · obtain ⟨path, hpath⟩ := (exists_pathAt_iff hfits x).mpr (List.mem_of_getLast? hx)
      refine ⟨x, path, hpath, ?_⟩
      apply Node.pathAt_eq_none_of_free hwhole
      -- all that the text occupies comes before its last character, and so before `x`
      intro leaf hm
      obtain ⟨z, -, hz, hgreatest⟩ := Leaf.exists_bottomRight (List.ne_nil_of_mem hm)
      have hzy : z.1 = y := by
        rw [← hz, Leaf.extent, hy]
        rfl
      exact not_le_of_gt hlt (hzy ▸ hgreatest _ hm)
    · have hcorner : (Leaf.extent Position.start tree.leaves).bottomRight = x := by
        rw [Leaf.extent, hx]
        rfl
      have hcorner' : (Leaf.extent Position.start whole.leaves).bottomRight = y := by
        rw [Leaf.extent, hy]
        rfl
      intro heq
      rw [heq, hcorner'] at hcorner
      exact not_le_of_gt hlt (hcorner ▸ le_refl y)

/-- A pair that is cut in two behind the last character does not show; one in front of a character does,
    also with empty leaves between its halves. -/
theorem resolves_as_text_unless_torn_pairs :
    let behind : Node := .list [.constant "a\r\n", .constant "b\r", .constant "\n"]
    let between : Node := .list [.constant "a\r", .list [], .constant "", .constant "\nb"]
    ¬ behind.TearsLineEnd ∧ behind.box = (Node.constant "a\r\nb\r\n").box ∧
      between.TearsLineEnd ∧ between.box ≠ (Node.constant "a\r\nb").box := by
  intro behind between
  have hbehind : ¬ behind.TearsLineEnd := by decide
  have hbetween : between.TearsLineEnd := by decide
  obtain ⟨-, box, hbox, hwhole⟩ := (resolves_as_text_unless_torn behind (by decide)).1 hbehind
  obtain ⟨-, left, right, hleft, hright, hne⟩ :=
    (resolves_as_text_unless_torn between (by decide)).2 hbetween
  refine ⟨hbehind, hbox.trans hwhole.symm, hbetween, ?_⟩
  rw [hleft, show (Node.constant "a\r\nb").box = .ok right from hright]
  intro heq
  injection heq with heq
  exact hne heq

/-- The second half of a pair in a leaf of its own starts a third line, where the text has two. -/
theorem positions_of_torn_pair :
    let tree : Node := .list [.constant "a\r", .constant "\nb"]
    tree.pathAt ⟨3, 1⟩ = .ok (some [.index 1]) ∧
      (Node.constant tree.render).pathAt ⟨3, 1⟩ = .ok none ∧
      tree.box = .ok ⟨⟨1, 1⟩, ⟨3, 1⟩⟩ ∧
      (Node.constant tree.render).box = .ok ⟨⟨1, 1⟩, ⟨2, 1⟩⟩ := by
  intro tree
  have htext : tree.render = "a\r\nb" := by decide
  rw [htext]
  exact ⟨rfl, rfl, rfl, rfl⟩

end Node

end LosslessTree
