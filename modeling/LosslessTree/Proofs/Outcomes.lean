import Mathlib
import LosslessTree.Proofs.BoxLookup
import LosslessTree.Proofs.PositionLookup
import LosslessTree.Query.Issue
import LosslessTree.Query.Outcome

/-!
# `Proofs.Outcomes` — what comes of the queries of a valid batch

A query has three outcomes, and for a batch without issues each of them has one reason. A position always
resolves, to a node or to nothing: the path that a search finds leads to a node. A path has a box exactly if
it leads to a node, so a query for a box fails exactly if a key of its path is missing, and is then reported
by that key. Whatever resolves is held against what the query expects, and is a mismatch if the
expectation asks for something else.

Two failures that running a query provides for never come up: a path that is no path, which the check of the
batch has excluded, and a path that leads to a node without a box.

## Contents
- **Expectations.** `Expectation.MeetsFound`, `Expectation.MeetsBox`, and `Resolution.unmet?` against them.
- **Targets.** `resolve_of_found`, `resolve_position`, `resolveBox_of_reach`, `resolveBox_of_unreached`.
- **Texts.** `MissingKey.Reads`, `MissingKey.message_ne`.
- **Valid batches.** `Batch.targetIssues_eq_nil`, `Issue.ofPath_eq_nil_iff`.
- **`Query.Classified`**, and `Batch.run_classified`.
-/

namespace LosslessTree

/-! ## Expectations -/

/-- The expectation is met by a position at which `found` was found. -/
def Expectation.MeetsFound (tree : Node) (e : Expectation) : Option Path → Prop
  | none => e.path = none ∧ e.kind = none
  | some p => e.nothing = false ∧ (∀ text ∈ e.path, Path.parse text = .ok p) ∧
    ∀ kind ∈ e.kind, ∃ n, tree.descend p = .ok n ∧ n.kindName = kind

/-- The expectation is met by a box: every corner that is given is the one of the box. -/
def Expectation.MeetsBox (e : Expectation) (box : BoundingBox) : Prop :=
  (∀ corner ∈ e.topLeft, box.topLeft = corner) ∧ ∀ corner ∈ e.bottomRight, box.bottomRight = corner

/-- The resolution of a position at which `found` was found. -/
def Resolution.Shows (tree : Node) : Option Path → Resolution → Prop
  | none, r => r = .nothing
  | some p, r => ∃ n, tree.descend p = .ok n ∧ r = .node p n.kindName

/-- Whether a corner that may be given is the one that came. -/
theorem cornerMeets_iff {wanted : Option Position} {came : Position} :
    cornerMeets wanted came = true ↔ ∀ corner ∈ wanted, came = corner := by
  cases wanted <;> simp [cornerMeets]

namespace Resolution

/-- An expectation that gives nothing is met. -/
theorem unmet?_default (r : Resolution) : r.unmet? {} = none := by
  cases r <;> rfl

/-- The expectations that what was found at a position meets. -/
theorem unmet?_eq_none_iff_meetsFound {tree : Node} {e : Expectation} {found : Option Path}
    {r : Resolution} (h : r.Shows tree found) : r.unmet? e = none ↔ e.MeetsFound tree found := by
  cases found with
  | none =>
    obtain rfl := h
    unfold unmet? Expectation.MeetsFound
    cases e.path <;> cases e.kind <;> simp
  | some p =>
    obtain ⟨n, hn, rfl⟩ := h
    have hpath : (e.path.all fun text => decide ((Path.parse text).toOption = some p)) = true ↔
        ∀ text ∈ e.path, Path.parse text = .ok p := by
      cases e.path with
      | none => simp
      | some text => cases hparse : Path.parse text <;> simp [Except.toOption, hparse]
    have hkind : (e.kind.all fun wanted => decide (wanted = n.kindName)) = true ↔
        ∀ kind ∈ e.kind, ∃ m, tree.descend p = .ok m ∧ m.kindName = kind := by
      cases e.kind with
      | none => simp
      | some kind => simp [hn, eq_comm]
    simp only [unmet?, Expectation.MeetsFound, ← hpath, ← hkind]
    cases e.nothing <;> simp

/-- The expectations that a box meets. -/
theorem unmet?_eq_none_iff_meetsBox {e : Expectation} {box : BoundingBox} :
    (Resolution.box box).unmet? e = none ↔ e.MeetsBox box := by
  unfold unmet? Expectation.MeetsBox
  rw [← cornerMeets_iff, ← cornerMeets_iff]
  simp

end Resolution

/-! ## Targets -/

section Targets

variable {tree n : Node}

/-- A position at which the path of a node is found resolves to that node. -/
theorem resolve_of_found {place : Position} {p : Path} (hfound : tree.pathAt place = .ok (some p))
    (hn : tree.reach p = some n) :
    resolve tree (.position place) = .ok (.ok (.node p n.kindName)) := by
  simp only [resolve, resolvePosition, hfound, bind, Except.bind, Node.descend_eq_ok_iff.mpr hn]
  rfl

/-- A position resolves to what is found there. -/
theorem resolve_position (hd : tree.Distinct) (hfits : tree.Fits) (place : Position) :
    ∃ found r, tree.pathAt place = .ok found ∧ Resolution.Shows tree found r ∧
      resolve tree (.position place) = .ok (.ok r) := by
  obtain ⟨found, hfound, hlocated⟩ := Node.pathAt_located hfits place
  cases found with
  | none =>
    refine ⟨none, .nothing, hfound, rfl, ?_⟩
    simp only [resolve, resolvePosition, hfound]
    rfl
  | some p =>
    -- the path found is that of a leaf, and leads to its owner
    obtain ⟨leaf, hm, rfl⟩ := hlocated
    obtain ⟨n, hreach, -⟩ := Node.reach_owner hd (Leaf.leaf_mem_of_mem_layout hm)
    have hn := Node.descend_eq_ok_iff.mpr hreach
    exact ⟨some leaf.owner, .node leaf.owner n.kindName, hfound, ⟨n, hn, rfl⟩,
      resolve_of_found hfound hreach⟩

/-- A path that leads to a node resolves to its box. -/
theorem resolveBox_of_reach (hd : tree.Distinct) (hfits : tree.Fits) {path : Path}
    (h : tree.reach path = some n) :
    resolveBox tree path = .ok (.ok (.box (Leaf.extent
      (Leaf.cursorAfter Position.start (tree.leavesBefore Path.root path)) (n.leavesFrom path)))) := by
  rw [resolveBox, Node.boxAt?_of_reach hd hfits h]
  rfl

/-- A path that leads nowhere is reported by the key that is missing. -/
theorem resolveBox_of_unreached (hd : tree.Distinct) (hfits : tree.Fits) {path : Path}
    {e : MissingKey} (h : tree.descend path = .error e) :
    resolveBox tree path = .ok (.error (.missingKey e)) := by
  have hreach := Node.descend_eq_error_iff.mp ⟨e, h⟩
  simp only [resolveBox, Node.boxAt?_of_unreached hd hfits hreach, h]
  rfl

/-- The text names a key that is missing, the node without it and, if there is one, the name suggested. -/
def MissingKey.Reads (e : MissingKey) (text : String) : Prop :=
  ∃ place hint, text = "no child `" ++ e.key.text ++ "` under " ++ place ++ hint ∧
    (e.parent = [] → place = "the root") ∧ (e.parent ≠ [] → place = "`" ++ e.parent.text ++ "`") ∧
    (e.suggestion = none → hint = "") ∧ ∀ name ∈ e.suggestion, hint = " (did you mean `" ++ name ++ "`?)"

theorem MissingKey.reads_message (e : MissingKey) : e.Reads e.message := by
  obtain ⟨parent, key, suggestion⟩ := e
  refine ⟨_, _, rfl, ?_, ?_, ?_, ?_⟩
  · rintro rfl
    rfl
  · intro hparent
    simp [Path.isRoot, hparent]
  · rintro rfl
    rfl
  · rintro name ⟨⟩
    rfl

/-- A missing key is not reported in the words of a path without a box. -/
theorem MissingKey.message_ne (e : MissingKey) (path : Path) :
    (Failure.missingKey e).text ≠ (BoxError.noSuchPath path).message := by
  intro h
  have hfirst := congrArg (fun text => text.toList.head?) h
  simp [Failure.text, MissingKey.message, BoxError.message] at hfirst

end Targets

/-! ## Valid batches -/

/-- A path that may be given has no issue if it can be parsed. -/
theorem Issue.ofPath_eq_nil_iff {id text : String} :
    Issue.ofPath id (some text) = [] ↔ ∃ path, Path.parse text = .ok path := by
  cases hparse : Path.parse text <;> simp [Issue.ofPath, hparse]

/-- The queries of a list without issues have none, whatever names were seen before. -/
theorem Query.issues_eq_nil_of_mem {seen : List String} {queries : List Query} {q : Query}
    (h : issuesAfter seen queries = []) (hq : q ∈ queries) : ∃ earlier, q.issues earlier = [] := by
  induction queries generalizing seen with
  | nil => cases hq
  | cons first rest ih =>
    obtain ⟨hfirst, hrest⟩ := List.append_eq_nil_iff.mp h
    rcases List.mem_cons.mp hq with rfl | hq
    · exact ⟨seen, hfirst⟩
    · exact ih hrest hq

/-- In a batch without issues every target makes sense. -/
theorem Batch.targetIssues_eq_nil {b : Batch} (h : b.issues = []) {q : Query} (hq : q ∈ b.queries) :
    q.targetIssues = [] := by
  unfold Batch.issues at h
  rw [if_neg (by simpa using List.ne_nil_of_mem hq)] at h
  obtain ⟨earlier, hissues⟩ := Query.issues_eq_nil_of_mem h hq
  exact (List.append_eq_nil_iff.mp (List.append_eq_nil_iff.mp hissues).1).2

/-! ## Outcomes -/

/-- The path whose box a target asks for. -/
def Target.Spells : Option String → Path → Prop
  | none, path => path = Path.root
  | some text, path => Path.parse text = .ok path

/-- The outcome says that `r` came, as resolved if the query expects nothing or its expectation is met, and
    as a mismatch if not. -/
def Query.Judged (q : Query) (meets : Expectation → Prop) (r : Resolution) (o : Outcome) : Prop :=
  (o = .resolved q.id r ↔ ∀ e ∈ q.expect, meets e) ∧
    ((∃ wanted, o = .mismatch q.id r wanted) ↔ ¬ ∀ e ∈ q.expect, meets e)

/-- What has to come of a query for the box of `path`. It fails if a key of the path is missing, and the
    reason is the text on that key. -/
def Query.BoxClassified (tree : Node) (q : Query) (path : Path) (o : Outcome) : Prop :=
  (∀ failure, o = .failed q.id failure ↔
    ∃ e, tree.descend path = .error e ∧ failure = .missingKey e) ∧
  (∀ failure, o = .failed q.id failure →
    ∃ e, tree.descend path = .error e ∧ failure.text = e.message ∧ e.Reads failure.text ∧
      ∀ p, failure.text ≠ (BoxError.noSuchPath p).message) ∧
  ∀ n, tree.descend path = .ok n →
    ∃ box, tree.boxAt path = .ok box ∧ q.Judged (·.MeetsBox box) (.box box) o

/-- What has to come of a query. -/
def Query.Classified (tree : Node) (q : Query) (o : Outcome) : Prop :=
  match q.target with
  | .position place =>
    (∀ failure, o ≠ .failed q.id failure) ∧
    ∃ found r, tree.pathAt place = .ok found ∧ Resolution.Shows tree found r ∧
      q.Judged (·.MeetsFound tree found) r o
  | .boundingBox text => ∃ path, Target.Spells text path ∧ q.BoxClassified tree path o

namespace Query

variable {tree : Node} {q : Query}

/-- A query whose target resolves is judged by what it expects. -/
theorem run_judged {meets : Expectation → Prop} {r : Resolution}
    (hr : resolve tree q.target = .ok (.ok r)) (hmeets : ∀ e, r.unmet? e = none ↔ meets e) :
    ∃ o, q.run tree = .ok o ∧ (∀ failure, o ≠ .failed q.id failure) ∧ q.Judged meets r o := by
  have hexpect : r.unmet? (q.expect.getD {}) = none ↔ ∀ e ∈ q.expect, meets e := by
    cases q.expect with
    | none => simp [Resolution.unmet?_default]
    | some e => simp [hmeets]
  unfold Judged
  rw [← hexpect]
  simp only [Query.run, hr, bind, Except.bind]
  cases r.unmet? (q.expect.getD {}) with
  | none => exact ⟨.resolved q.id r, rfl, by simp, by simp, by simp⟩
  | some wanted => exact ⟨.mismatch q.id r wanted, rfl, by simp, by simp, by simp⟩

/-- A query for a box comes to what the path that it spells resolves to. -/
theorem run_boxClassified (hd : tree.Distinct) (hfits : tree.Fits) {path : Path}
    (hresolve : resolve tree q.target = resolveBox tree path) :
    ∃ o, q.run tree = .ok o ∧ q.BoxClassified tree path o := by
  unfold BoxClassified
  cases hdescend : tree.descend path with
  | ok n =>
    have hreach := Node.descend_eq_ok_iff.mp hdescend
    have hbox := Node.boxAt_of_reach hd hfits hreach
    have hr := hresolve.trans (resolveBox_of_reach hd hfits hreach)
    obtain ⟨o, hrun, hfailed, hjudged⟩ := run_judged hr fun e => Resolution.unmet?_eq_none_iff_meetsBox
    refine ⟨o, hrun, ?_, ?_, fun _ _ => ⟨_, hbox, hjudged⟩⟩
    · intro failure
      exact ⟨fun ho => absurd ho (hfailed failure), fun ⟨e, he, _⟩ => (by cases he)⟩
    · intro failure ho
      exact absurd ho (hfailed failure)
  | error e =>
    have hr := hresolve.trans (resolveBox_of_unreached hd hfits hdescend)
    have hrun : q.run tree = .ok (.failed q.id (.missingKey e)) := by
      simp only [Query.run, hr]
      rfl
    refine ⟨_, hrun, ?_, ?_, fun n hn => (by cases hn)⟩
    · intro failure
      constructor
      · intro ho
        injection ho with _ ho
        exact ⟨e, rfl, ho.symm⟩
      · rintro ⟨_, he, rfl⟩
        cases he
        rfl
    · intro failure ho
      injection ho with _ ho
      rw [← ho]
      exact ⟨e, rfl, rfl, e.reads_message, e.message_ne⟩

/-- A query whose target makes sense comes to what its target and its expectation say. -/
theorem exists_classified (hd : tree.Distinct) (hfits : tree.Fits) (htarget : q.targetIssues = []) :
    ∃ o, q.run tree = .ok o ∧ q.Classified tree o := by
  unfold targetIssues at htarget
  unfold Classified
  cases hq : q.target with
  | position place =>
    obtain ⟨found, r, hfound, hshows, hr⟩ := resolve_position hd hfits place
    rw [← hq] at hr
    obtain ⟨o, hrun, hfailed, hjudged⟩ := run_judged hr
      fun e => Resolution.unmet?_eq_none_iff_meetsFound hshows
    exact ⟨o, hrun, hfailed, found, r, hfound, hshows, hjudged⟩
  | boundingBox text =>
    have hpath : ∃ path, Target.Spells text path ∧ resolve tree q.target = resolveBox tree path := by
      rw [hq] at htarget ⊢
      cases text with
      | none => exact ⟨Path.root, rfl, rfl⟩
      | some text =>
        obtain ⟨path, hparse⟩ := Issue.ofPath_eq_nil_iff.mp htarget
        refine ⟨path, hparse, ?_⟩
        simp only [resolve, hparse]
    obtain ⟨path, hspells, hresolve⟩ := hpath
    obtain ⟨o, hrun, hclassified⟩ := run_boxClassified hd hfits hresolve
    exact ⟨o, hrun, path, hspells, hclassified⟩

end Query

/-- Elements that are all taken give a list of what came of them. -/
theorem exists_mapM_eq_ok {α β ε : Type} {f : α → Except ε β} {R : α → β → Prop} {xs : List α}
    (h : ∀ x ∈ xs, ∃ y, f x = .ok y ∧ R x y) :
    ∃ ys, xs.mapM f = .ok ys ∧ List.Forall₂ R xs ys := by
  induction xs with
  | nil => exact ⟨[], rfl, .nil⟩
  | cons x rest ih =>
    obtain ⟨y, hy, hxy⟩ := h x List.mem_cons_self
    obtain ⟨ys, hys, hrest⟩ := ih fun z hz => h z (List.mem_cons_of_mem x hz)
    refine ⟨y :: ys, ?_, .cons hxy hrest⟩
    rw [List.mapM_cons, hy, hys]
    rfl

/-- **Outcomes are classified by the expectations.** A batch without issues comes to one outcome for each of
    its queries, in their order. A query of a position never fails. It is resolved if it expects nothing,
    or what was found meets its expectation, and else a mismatch. A query for a box fails exactly if its
    path has a key that is missing. The reason is then the text of the missing key, never that of a path
    without a box. Otherwise it is resolved if the box has every corner that is given, and else a mismatch. -/
theorem Batch.run_classified (tree : Node) (hd : tree.Distinct) (hfits : tree.Fits) (b : Batch)
    (hvalid : b.issues = []) :
    ∃ outcomes, b.run tree = .ok outcomes ∧
      List.Forall₂ (Query.Classified tree) b.queries outcomes := by
  apply exists_mapM_eq_ok
  intro q hq
  exact Query.exists_classified hd hfits (Batch.targetIssues_eq_nil hvalid hq)

/-- One query of each outcome: the name stands where it is expected, a key is misspelt, and the whole box
    does not begin on line 2. -/
theorem Batch.run_classified_call :
    let tree : Node := .composite "call" [.field "name" (.constant "f"), .text "()"]
    let batch : Batch := ⟨{}, [
      ⟨"a", .position ⟨1, 1⟩, some { path := some "name", kind := some "constant" }⟩,
      ⟨"b", .boundingBox (some "nam"), none⟩,
      ⟨"c", .boundingBox none, some { topLeft := some ⟨2, 1⟩ }⟩]⟩
    batch.issues = [] ∧ ∃ reason wanted,
      batch.run tree = .ok [.resolved "a" (.node [.name "name"] "constant"), .failed "b" reason,
        .mismatch "c" (.box ⟨⟨1, 1⟩, ⟨1, 3⟩⟩) wanted] ∧
      reason = .missingKey ⟨[], .name "nam", some "name"⟩ ∧
      reason.text = "no child `nam` under the root (did you mean `name`?)" ∧
      (Outcome.failed "b" reason).text =
        "b: failed - no child `nam` under the root (did you mean `name`?)" := by
  intro tree batch
  have hd : tree.Distinct := by decide
  have hfits : tree.Fits := by decide
  have hvalid : batch.issues = [] := by cbv
  refine ⟨hvalid, ?_⟩
  obtain ⟨outcomes, hrun, hall⟩ := Batch.run_classified tree hd hfits batch hvalid
  obtain ⟨a, _, ha, hrest, rfl⟩ := List.forall₂_cons_left_iff.mp hall
  obtain ⟨b, _, hb, hlast, rfl⟩ := List.forall₂_cons_left_iff.mp hrest
  obtain ⟨c, _, hc, hnil, rfl⟩ := List.forall₂_cons_left_iff.mp hlast
  obtain rfl := List.forall₂_nil_left_iff.mp hnil
  have hfound : tree.pathAt ⟨1, 1⟩ = .ok (some [.name "name"]) := by rfl
  have hname : Path.parse "name" = .ok [.name "name"] := by cbv
  have hmisspelt : Path.parse "nam" = .ok [.name "nam"] := by cbv
  have hmissing : tree.descend [.name "nam"] = .error ⟨[], .name "nam", some "name"⟩ := by cbv
  have hbox : tree.boxAt [] = .ok ⟨⟨1, 1⟩, ⟨1, 3⟩⟩ :=
    Node.boxAt_of_reach hd hfits (show tree.reach [] = some tree from rfl)
  obtain ⟨-, found, r, hfound', hshows, hjudged⟩ := ha
  obtain rfl := Except.ok.inj (hfound.symm.trans hfound')
  obtain ⟨n, hn, rfl⟩ := hshows
  obtain rfl : .constant "f" = n := Except.ok.inj hn
  have hfirst := hjudged.1.mpr (by
    intro e he
    cases he
    refine ⟨rfl, ?_, ?_⟩
    · intro text htext
      cases htext
      exact hname
    · intro kind hkind
      cases hkind
      exact ⟨_, hn, rfl⟩)
  obtain ⟨path, hspells, hfailed, hreason, -⟩ := hb
  obtain rfl := Except.ok.inj (hmisspelt.symm.trans hspells)
  have hsecond := (hfailed _).mpr ⟨_, hmissing, rfl⟩
  obtain ⟨e, he, htext, -⟩ := hreason _ hsecond
  obtain rfl := Except.error.inj (hmissing.symm.trans he)
  have hprinted : (⟨[], .name "nam", some "name"⟩ : MissingKey).message =
      "no child `nam` under the root (did you mean `name`?)" := by decide
  rw [hprinted] at htext
  obtain ⟨path, rfl, -, -, hresolved⟩ := hc
  obtain ⟨box, hbox', -, hmismatch⟩ := hresolved tree rfl
  obtain rfl := Except.ok.inj (hbox.symm.trans hbox')
  obtain ⟨wanted, hthird⟩ := hmismatch.mpr (by
    intro hall
    exact absurd ((hall _ rfl).1 _ rfl) (by decide))
  refine ⟨_, wanted, ?_, rfl, htext, ?_⟩
  · rw [hrun, hfirst, hsecond, hthird]
    rfl
  · rw [Outcome.text, htext]
    decide

end LosslessTree
