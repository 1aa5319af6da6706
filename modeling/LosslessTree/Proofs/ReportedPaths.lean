import LosslessTree.Proofs.Ancestors
import LosslessTree.Proofs.Outcomes
import LosslessTree.Proofs.PathText

/-!
# `Proofs.ReportedPaths` — reported paths in later queries

The path found at a position is reported as text, and a query takes text for a path: as what it expects
of a position, or as the node whose box it asks for. Fed back like this, the text of the path found
gives the node again, unless some name on the path looks like an index with a plus sign. Such a name is
read as an index, and only a composite has names: the path read leads nowhere.

## Contents
- **`Node.reach_reread`**, where the path that is read leads.
- **`Query.run_position`, `Query.run_box`**, the outcomes of the two queries by what their path spells.
- **`Query.run_reported`**, the outcomes for the text of a path found, in either case.
-/

namespace LosslessTree

/-! ## Following the path that is read -/

/-- A composite is reached by names alone, so a name that is read as an index leads nowhere. -/
theorem Node.child_reread {tree child : Node} {key : Key} (h : tree.child key = some child)
    (hsigned : key.signedIndex? ≠ none) : tree.child key.reread = none := by
  obtain ⟨i, hi⟩ := Option.ne_none_iff_exists'.mp hsigned
  rw [Key.reread_eq_index hi]
  cases tree with
  | constant text => rfl
  | list items =>
    cases key with
    | index j => cases hi
    | name name => cases h
  | composite kind slots => rfl

/-- A path that leads somewhere and has a name that looks like an index leads nowhere once it has been
    written and read. -/
theorem Node.reach_reread {tree n : Node} {p : Path} (h : tree.reach p = some n)
    (hsigned : ∃ key ∈ p, key.signedIndex? ≠ none) : tree.reach (p.map Key.reread) = none := by
  induction p generalizing tree with
  | nil =>
    obtain ⟨key, hkey, -⟩ := hsigned
    cases hkey
  | cons key rest ih =>
    obtain ⟨child, hchild, hrest⟩ := Option.bind_eq_some_iff.mp h
    by_cases hkey : key.signedIndex? = none
    · have htail : ∃ k ∈ rest, k.signedIndex? ≠ none := by
        obtain ⟨k, hk, hne⟩ := hsigned
        rcases List.mem_cons.mp hk with rfl | hk
        · exact absurd hkey hne
        · exact ⟨k, hk, hne⟩
      rw [List.map_cons, Node.reach, Key.reread_eq_self hkey, hchild]
      exact ih hrest htail
    · rw [List.map_cons, Node.reach, Node.child_reread hchild hkey]
      rfl

/-! ## Outcomes -/

namespace Query

variable {tree : Node}

/-- A position query that expects a path meets it when the text spells the path found. -/
theorem run_position {target : Position} {p : Path} {n : Node}
    (hfound : tree.pathAt target = .ok (some p)) (hn : tree.reach p = some n) (id text : String) :
    Query.run tree ⟨id, .position target, some { path := some text }⟩ =
      .ok (if (Path.parse text).toOption = some p then .resolved id (.node p n.kindName)
        else .mismatch id (.node p n.kindName) (.node (some text) none)) := by
  simp only [Query.run, resolve_of_found hfound hn]
  by_cases htext : (Path.parse text).toOption = some p
  · simp [Resolution.unmet?, htext, bind, Except.bind, pure, Except.pure]
  · simp [Resolution.unmet?, htext, bind, Except.bind, pure, Except.pure]

/-- A box query whose path leads to a node resolves to the box of that node. -/
theorem run_box {text : String} {q : Path} {n : Node} (hd : tree.Distinct) (hfits : tree.Fits)
    (htext : Path.parse text = .ok q) (hn : tree.reach q = some n) (id : String) :
    Query.run tree ⟨id, .boundingBox (some text), none⟩ =
      .ok (.resolved id (.box (Leaf.extent
        (Leaf.cursorAfter Position.start (tree.leavesBefore Path.root q)) (n.leavesFrom q)))) := by
  simp only [Query.run, resolve, htext, resolveBox_of_reach hd hfits hn]
  rfl

/-- A box query whose path leads nowhere fails. -/
theorem run_box_unreached {text : String} {q : Path} (hd : tree.Distinct) (hfits : tree.Fits)
    (htext : Path.parse text = .ok q) (hn : tree.reach q = none) (id : String) :
    ∃ e, Query.run tree ⟨id, .boundingBox (some text), none⟩ = .ok (.failed id (.missingKey e)) := by
  obtain ⟨e, he⟩ := Node.descend_eq_error_iff.mpr hn
  refine ⟨e, ?_⟩
  simp only [Query.run, resolve, htext, resolveBox_of_unreached hd hfits he]
  rfl

/-- **Reported paths in queries.** Let `p` be the path found at a position. If no name on it looks like
    an index with a plus sign, its text is what a query of that position may expect, and the box that a
    query for that text resolves to contains the position. If some name does, the first query is a
    mismatch and the second fails. -/
theorem run_reported (tree : Node) (hd : tree.Distinct) (hfits : tree.Fits) (target : Position)
    (p : Path) (hfound : tree.pathAt target = .ok (some p))
    (hindex : ∀ i, .index i ∈ p → i < Key.indexBound) (id : String) :
    ((∀ key ∈ p, key.signedIndex? = none) →
      (∃ n, tree.descend p = .ok n ∧
        Query.run tree ⟨id, .position target, some { path := some p.text }⟩ =
          .ok (.resolved id (.node p n.kindName))) ∧
      ∃ box, Query.run tree ⟨id, .boundingBox (some p.text), none⟩ = .ok (.resolved id (.box box)) ∧
        box.contains target = true) ∧
    ((∃ key ∈ p, key.signedIndex? ≠ none) →
      (∃ resolution wanted,
        Query.run tree ⟨id, .position target, some { path := some p.text }⟩ =
          .ok (.mismatch id resolution wanted)) ∧
      ∃ e, Query.run tree ⟨id, .boundingBox (some p.text), none⟩ =
        .ok (.failed id (.missingKey e))) := by
  obtain ⟨leaf, hm, rfl⟩ := (Node.pathAt_eq_some_iff hfits).mp hfound
  obtain ⟨n, hn, -⟩ := Node.reach_owner hd (Leaf.leaf_mem_of_mem_layout hm)
  have hparse := Path.parse_text hindex
  have hposition := run_position hfound hn id (Path.text leaf.owner)
  constructor
  · intro hplain
    have hsame : leaf.owner.map Key.reread = leaf.owner := by
      rw [List.map_congr_left fun key hkey => Key.reread_eq_self (hplain key hkey), List.map_id']
    rw [hsame] at hparse
    refine ⟨⟨n, Node.descend_eq_ok_iff.mpr hn, ?_⟩, _, run_box hd hfits hparse hn id, ?_⟩
    · rw [hposition, hparse]
      exact congrArg Except.ok (if_pos rfl)
    · apply Leaf.contains_extent_of_mem
      exact (Node.mem_layout_iff_prefix hd hn hm).mpr (List.prefix_refl _)
  · intro hsigned
    -- the path read leads nowhere, so it is not the path found
    have hlost := Node.reach_reread hn hsigned
    refine ⟨⟨.node leaf.owner n.kindName, .node (some (Path.text leaf.owner)) none, ?_⟩,
      run_box_unreached hd hfits hparse hlost id⟩
    have hother : (Path.parse (Path.text leaf.owner)).toOption ≠ some leaf.owner := by
      intro hsame
      rw [hparse] at hsame
      have hfixed : leaf.owner.map Key.reread = leaf.owner := Option.some.inj hsame
      rw [hfixed, hn] at hlost
      cases hlost
    rw [hposition, if_neg hother]

/-- The name `7` is put in quotes and found again. The name `+5` is not, and is lost. -/
theorem run_reported_digits :
    let tree : Node := .composite "t"
      [.field "7" (.list [.constant "x"]), .field "+5" (.constant "y")]
    tree.pathAt ⟨1, 1⟩ = .ok (some [.name "7", .index 0]) ∧
      tree.pathAt ⟨1, 2⟩ = .ok (some [.name "+5"]) ∧
      (∃ box, Query.run tree ⟨"q", .boundingBox (some (Path.text [.name "7", .index 0])), none⟩ =
        .ok (.resolved "q" (.box box)) ∧ box.contains ⟨1, 1⟩ = true) ∧
      ∃ e, Query.run tree ⟨"q", .boundingBox (some (Path.text [.name "+5"])), none⟩ =
        .ok (.failed "q" (.missingKey e)) := by
  intro tree
  have hd : tree.Distinct := by decide
  have hfits : tree.Fits := by decide
  have hseven : tree.pathAt ⟨1, 1⟩ = .ok (some [.name "7", .index 0]) := by rfl
  have hfive : tree.pathAt ⟨1, 2⟩ = .ok (some [.name "+5"]) := by rfl
  have hfound := run_reported tree hd hfits ⟨1, 1⟩ _ hseven (by simp [Key.indexBound]) "q"
  have hlost := run_reported tree hd hfits ⟨1, 2⟩ _ hfive (by simp) "q"
  exact ⟨hseven, hfive, (hfound.1 (by decide)).2, (hlost.2 (by decide)).2⟩

/-- The path reported for the only character of a tree is not what a query of its position may expect,
    and no box is found for it. -/
theorem reported_plus_five_lost :
    let tree : Node := .composite "t" [.field "+5" (.constant "x")]
    tree.Distinct ∧ tree.pathAt ⟨1, 1⟩ = .ok (some [.name "+5"]) ∧ Path.text [.name "+5"] = "+5" ∧
      Query.run tree ⟨"p", .position ⟨1, 1⟩, some { path := some "+5" }⟩ =
        .ok (.mismatch "p" (.node [.name "+5"] "constant") (.node (some "+5") none)) ∧
      Query.run tree ⟨"b", .boundingBox (some "+5"), none⟩ =
        .ok (.failed "b" (.missingKey ⟨[], .index 5, none⟩)) := by
  intro tree
  have hd : tree.Distinct := by decide
  exact ⟨hd, rfl, by decide, by cbv, by cbv⟩

end Query

end LosslessTree
