import LosslessTree.Query.Issue

/-!
# `Proofs.BatchIssues` — the issues of a batch are all that is wrong with it

A query is checked in four stages: its name, its target, the path that it expects, and whether what it
expects fits its target. `Query.Violates` says for each stage what is wrong, in terms of the query and of
the queries in front of it. The check itself does not look back at these: it remembers the names that were
used, and blank ones are left out. Remembering them is as good as looking back, since a name that is
blank is never asked for.

So each query contributes at most one issue for each stage, the issues come in the order of the queries and of
the stages, and a batch has none exactly if it is valid.

## Contents
- **`Stage`, `Expectation.Clashes`, `Query.Violates`**, what can be wrong with a query.
- **`Batch.Valid`**, the batches with which nothing is wrong.
- **One query.** `Query.stageIssues`, `Query.Remembers`, `Query.issues_finds`.
- **All queries.** `issuesAfter_finds`, `Batch.valid_of_not_violates`, `Batch.Valid.not_violates`.
- **`Batch.issues_sound_complete`**.
-/

namespace LosslessTree

/-! ## What can be wrong -/

/-- The stages in which a query is checked. -/
inductive Stage where
  | name
  | target
  | expectedPath
  | fit
  deriving DecidableEq, Repr

/-- All stages, in their order. -/
def Stage.all : List Stage := [.name, .target, .expectedPath, .fit]

theorem Stage.mem_all (stage : Stage) : stage ∈ Stage.all := by
  cases stage <;> decide

/-- A name without a character other than white space. -/
def Query.Blank (q : Query) : Prop := ∀ c ∈ q.id.toList, Text.isBlank c = true

/-- An expectation does not fit a target. Corners at a position come before all else. -/
inductive Expectation.Clashes (e : Expectation) : Target → Clash → Prop
  | corners (place : Position) : e.topLeft ≠ none ∨ e.bottomRight ≠ none →
      Clashes e (.position place) .cornersOfPosition
  | nothing (place : Position) : e.topLeft = none → e.bottomRight = none → e.nothing = true →
      e.path ≠ none ∨ e.kind ≠ none → Clashes e (.position place) .nothingWithNode
  | node (path : Option String) : e.path ≠ none ∨ e.kind ≠ none ∨ e.nothing = true →
      Clashes e (.boundingBox path) .nodeOfBox

/-- A query behind the queries `earlier` has an issue in a stage. -/
inductive Query.Violates (earlier : List Query) (q : Query) : Stage → Issue → Prop
  | blank : q.Blank → Violates earlier q .name .blankId
  | repeated {other : Query} : ¬ q.Blank → other ∈ earlier → other.id = q.id →
      Violates earlier q .name (.duplicateId q.id)
  | outOfRange {place : Position} : q.target = .position place → place.line < 1 ∨ place.column < 1 →
      Violates earlier q .target (.clash q.id (.outOfRange place))
  | boxPath {text : String} {error : PathError} : q.target = .boundingBox (some text) →
      Path.parse text = .error error → Violates earlier q .target (.invalidPath q.id error)
  | expectedPath {e : Expectation} {text : String} {error : PathError} : q.expect = some e →
      e.path = some text → Path.parse text = .error error →
      Violates earlier q .expectedPath (.invalidPath q.id error)
  | fit {e : Expectation} {why : Clash} : q.expect = some e → e.Clashes q.target why →
      Violates earlier q .fit (.clash q.id why)

/-- A batch with which nothing is wrong. -/
structure Batch.Valid (b : Batch) : Prop where
  queries : b.queries ≠ []
  named : ∀ q ∈ b.queries, ∃ c ∈ q.id.toList, Text.isBlank c = false
  distinct : (b.queries.map (·.id)).Nodup
  places : ∀ q ∈ b.queries, ∀ place, q.target = .position place → 1 ≤ place.line ∧ 1 ≤ place.column
  boxPaths : ∀ q ∈ b.queries, ∀ text, q.target = .boundingBox (some text) →
    ∃ path, Path.parse text = .ok path
  expectedPaths : ∀ q ∈ b.queries, ∀ e ∈ q.expect, ∀ text ∈ e.path, ∃ path, Path.parse text = .ok path
  fitsPosition : ∀ q ∈ b.queries, ∀ e ∈ q.expect, ∀ place, q.target = .position place →
    e.topLeft = none ∧ e.bottomRight = none ∧ ¬ (e.nothing = true ∧ (e.path ≠ none ∨ e.kind ≠ none))
  fitsBox : ∀ q ∈ b.queries, ∀ e ∈ q.expect, ∀ path, q.target = .boundingBox path →
    e.path = none ∧ e.kind = none ∧ e.nothing = false

/-! ## One query -/

/-- A stage adds the one issue that is wrong there, or none. -/
structure Stage.Finds (issues : List Issue) (wrong : Issue → Prop) : Prop where
  atMostOne : issues = issues.head?.toList
  found_iff : ∀ issue, issues.head? = some issue ↔ wrong issue

namespace Stage.Finds

variable {wrong : Issue → Prop}

theorem none (h : ∀ issue, ¬ wrong issue) : Finds [] wrong where
  atMostOne := rfl
  found_iff issue := ⟨fun hissue => (by cases hissue), fun hissue => absurd hissue (h issue)⟩

theorem one {issue : Issue} (h : wrong issue) (honly : ∀ other, wrong other → other = issue) :
    Finds [issue] wrong where
  atMostOne := rfl
  found_iff other := by
    constructor
    · intro hother
      cases hother
      exact h
    · intro hother
      rw [honly other hother]
      rfl

end Stage.Finds

/-- Why a path that may be given is not a path. -/
theorem Issue.ofPath_finds (id : String) (path : Option String) :
    Stage.Finds (Issue.ofPath id path) fun issue =>
      ∃ text error, path = some text ∧ Path.parse text = .error error ∧
        issue = .invalidPath id error := by
  cases path with
  | none => exact .none (by simp)
  | some text =>
    cases hparse : Path.parse text with
    | ok path =>
      simp only [Issue.ofPath, hparse]
      refine .none ?_
      simp [hparse]
    | error error =>
      simp only [Issue.ofPath, hparse]
      refine .one ⟨text, error, rfl, hparse, rfl⟩ ?_
      simp [hparse]

theorem Expectation.clash?_eq_some_iff {e : Expectation} {target : Target} {why : Clash} :
    e.clash? target = some why ↔ e.Clashes target why := by
  constructor
  · intro h
    cases target with
    | position place =>
      simp only [clash?, Bool.or_eq_true, Bool.and_eq_true, Option.isSome_iff_ne_none] at h
      split at h
      · next hcorner =>
        cases h
        exact .corners place hcorner
      · next hcorner =>
        split at h
        · next hnothing =>
          cases h
          rw [not_or, Classical.not_not, Classical.not_not] at hcorner
          exact .nothing place hcorner.1 hcorner.2 hnothing.1 hnothing.2
        · cases h
    | boundingBox path =>
      simp only [clash?, Bool.or_eq_true, Option.isSome_iff_ne_none, or_assoc] at h
      split at h
      · next hnode =>
        cases h
        exact .node path hnode
      · cases h
  · intro h
    cases h with
    | corners place hcorner => simp [clash?, Option.isSome_iff_ne_none, hcorner]
    | nothing place htop hbottom hnothing hnode =>
      simp [clash?, htop, hbottom, hnothing, Option.isSome_iff_ne_none, hnode]
    | node path hnode => simp [clash?, Option.isSome_iff_ne_none, or_assoc, hnode]

namespace Query

variable {q : Query} {earlier : List Query} {seen : List String}

theorem isBlankText_iff : Text.isBlankText q.id = true ↔ q.Blank := by
  simp [Text.isBlankText, Blank]

/-- The names that are kept of earlier queries are those that are not blank. -/
def Remembers (earlier : List Query) (seen : List String) : Prop :=
  ∀ id, id ∈ seen ↔ ∃ other ∈ earlier, ¬ other.Blank ∧ other.id = id

theorem idIssues_finds (hseen : Remembers earlier seen) :
    Stage.Finds (q.idIssues seen) (q.Violates earlier .name) := by
  unfold idIssues
  by_cases hblank : q.Blank
  · rw [if_pos (isBlankText_iff.mpr hblank)]
    refine .one (.blank hblank) ?_
    intro other h
    cases h with
    | blank _ => rfl
    | repeated hnamed _ _ => exact absurd hblank hnamed
  · rw [if_neg (mt isBlankText_iff.mp hblank)]
    by_cases hmem : q.id ∈ seen
    · obtain ⟨other, hother, -, hid⟩ := (hseen q.id).mp hmem
      rw [if_pos hmem]
      refine .one (.repeated hblank hother hid) ?_
      intro other h
      cases h with
      | blank h => exact absurd h hblank
      | repeated _ _ _ => rfl
    · rw [if_neg hmem]
      refine .none ?_
      intro issue h
      cases h with
      | blank h => exact hblank h
      | @repeated other _ hother hid =>
        -- the other name is the same, so it is not blank and was remembered
        have hnamed : ¬ other.Blank := by
          unfold Blank at hblank ⊢
          rw [hid]
          exact hblank
        exact hmem ((hseen q.id).mpr ⟨other, hother, hnamed, hid⟩)

theorem targetIssues_finds : Stage.Finds q.targetIssues (q.Violates earlier .target) := by
  unfold targetIssues
  cases htarget : q.target with
  | position place =>
    by_cases hrange : place.line < 1 ∨ place.column < 1
    · simp only [hrange, if_true]
      refine .one (.outOfRange htarget hrange) ?_
      intro other h
      cases h with
      | outOfRange hplace _ =>
        cases htarget.symm.trans hplace
        rfl
      | boxPath hbox _ => cases htarget.symm.trans hbox
    · simp only [hrange, if_false]
      refine .none ?_
      intro issue h
      cases h with
      | outOfRange hplace hout =>
        cases htarget.symm.trans hplace
        exact hrange hout
      | boxPath hbox _ => cases htarget.symm.trans hbox
  | boundingBox path =>
    have hpath := Issue.ofPath_finds q.id path
    refine ⟨hpath.atMostOne, ?_⟩
    intro issue
    refine (hpath.found_iff issue).trans ⟨?_, ?_⟩
    · rintro ⟨text, error, rfl, hparse, rfl⟩
      exact .boxPath htarget hparse
    · intro h
      cases h with
      | outOfRange hplace _ => cases htarget.symm.trans hplace
      | boxPath hbox hparse =>
        cases htarget.symm.trans hbox
        exact ⟨_, _, rfl, hparse, rfl⟩

theorem expectedPath_finds :
    Stage.Finds (Issue.ofPath q.id (q.expect.bind (·.path))) (q.Violates earlier .expectedPath) := by
  have hpath := Issue.ofPath_finds q.id (q.expect.bind (·.path))
  refine ⟨hpath.atMostOne, ?_⟩
  intro issue
  refine (hpath.found_iff issue).trans ⟨?_, ?_⟩
  · rintro ⟨text, error, htext, hparse, rfl⟩
    obtain ⟨e, he, htext⟩ := Option.bind_eq_some_iff.mp htext
    exact .expectedPath he htext hparse
  · intro h
    cases h with
    | expectedPath he htext hparse =>
      exact ⟨_, _, Option.bind_eq_some_iff.mpr ⟨_, he, htext⟩, hparse, rfl⟩

theorem bind_clash?_eq_some_iff {why : Clash} :
    q.expect.bind (·.clash? q.target) = some why ↔ ∃ e, q.expect = some e ∧ e.Clashes q.target why := by
  simp only [Option.bind_eq_some_iff, Expectation.clash?_eq_some_iff]

theorem fit_finds :
    Stage.Finds ((q.expect.bind (·.clash? q.target)).map (Issue.clash q.id)).toList
      (q.Violates earlier .fit) := by
  cases hclash : q.expect.bind (·.clash? q.target) with
  | none =>
    refine .none ?_
    intro issue h
    cases h with
    | fit he hwhy => cases hclash.symm.trans (bind_clash?_eq_some_iff.mpr ⟨_, he, hwhy⟩)
  | some why =>
    obtain ⟨e, he, hwhy⟩ := bind_clash?_eq_some_iff.mp hclash
    refine .one (.fit he hwhy) ?_
    intro other h
    cases h with
    | fit he hwhy =>
      cases hclash.symm.trans (bind_clash?_eq_some_iff.mpr ⟨_, he, hwhy⟩)
      rfl

/-- The issues that a stage of the check adds. -/
def stageIssues (q : Query) (seen : List String) : Stage → List Issue
  | .name => q.idIssues seen
  | .target => q.targetIssues
  | .expectedPath => Issue.ofPath q.id (q.expect.bind (·.path))
  | .fit => ((q.expect.bind (·.clash? q.target)).map (Issue.clash q.id)).toList

/-- A query is checked stage by stage. -/
theorem issues_eq (q : Query) (seen : List String) :
    q.issues seen = Stage.all.flatMap (q.stageIssues seen) := by
  unfold issues expectIssues Stage.all
  cases hexpect : q.expect with
  | none => simp [stageIssues, Issue.ofPath, hexpect]
  | some e => simp [stageIssues, hexpect]

theorem stageIssues_finds (hseen : Remembers earlier seen) (stage : Stage) :
    Stage.Finds (q.stageIssues seen stage) (q.Violates earlier stage) := by
  cases stage with
  | name => exact idIssues_finds hseen
  | target => exact targetIssues_finds
  | expectedPath => exact expectedPath_finds
  | fit => exact fit_finds

/-- **One query.** Its issues are what is wrong in each of its stages. -/
theorem issues_finds (q : Query) (hseen : Remembers earlier seen) :
    ∃ found : Stage → Option Issue,
      q.issues seen = Stage.all.flatMap (fun stage => (found stage).toList) ∧
      ∀ stage issue, found stage = some issue ↔ q.Violates earlier stage issue := by
  refine ⟨fun stage => (q.stageIssues seen stage).head?, ?_, ?_⟩
  · rw [issues_eq]
    congr 1
    funext stage
    exact (stageIssues_finds hseen stage).atMostOne
  · intro stage
    exact (stageIssues_finds hseen stage).found_iff

/-- A query is remembered with those before it, unless its name is blank. -/
theorem Remembers.step (h : Remembers earlier seen) (q : Query) :
    Remembers (earlier ++ [q]) (q.remember seen) := by
  intro id
  unfold remember
  have hlast : (∃ other ∈ earlier ++ [q], ¬ other.Blank ∧ other.id = id) ↔
      (∃ other ∈ earlier, ¬ other.Blank ∧ other.id = id) ∨ (¬ q.Blank ∧ q.id = id) := by
    simp [or_and_right, exists_or]
  rw [hlast, ← h id]
  by_cases hblank : q.Blank
  · simp [isBlankText_iff.mpr hblank, hblank]
  · simp [mt isBlankText_iff.mp hblank, hblank, or_comm, eq_comm]

end Query

/-! ## All queries -/

/-- **All queries.** The issues of queries behind `earlier` are those of each, in their order. -/
theorem issuesAfter_finds {earlier queries : List Query} {seen : List String}
    (hseen : Query.Remembers earlier seen) :
    ∃ found : Nat → Stage → Option Issue,
      issuesAfter seen queries = (List.range queries.length).flatMap (fun i =>
        Stage.all.flatMap fun stage => (found i stage).toList) ∧
      ∀ (i : Nat) (q : Query), queries[i]? = some q → ∀ stage issue,
        found i stage = some issue ↔ q.Violates (earlier ++ queries.take i) stage issue := by
  induction queries generalizing earlier seen with
  | nil => exact ⟨fun _ _ => none, rfl, by simp⟩
  | cons q rest ih =>
    obtain ⟨first, hissues, hfirst⟩ := Query.issues_finds q hseen
    obtain ⟨later, hrest, hlater⟩ := ih (hseen.step q)
    refine ⟨fun i => Nat.casesOn i first later, ?_, ?_⟩
    · rw [issuesAfter, hissues, hrest, List.length_cons, List.range_succ_eq_map, List.flatMap_cons,
        List.flatMap_map]
      rfl
    · intro i other hi
      cases i with
      | zero =>
        cases hi
        rw [List.take_zero, List.append_nil]
        exact hfirst
      | succ i =>
        rw [List.take_succ_cons, ← List.singleton_append, ← List.append_assoc]
        exact hlater i other hi

/-! ## Valid batches -/

/-- Names are distinct if none is that of an earlier query. -/
theorem Query.nodup_iff {queries : List Query} :
    (queries.map (·.id)).Nodup ↔
      ∀ (i : Nat) (q : Query), queries[i]? = some q → ∀ other ∈ queries.take i, other.id ≠ q.id := by
  rw [List.Nodup, List.pairwise_map, List.pairwise_iff_getElem]
  constructor
  · intro h i q hi other hother
    obtain ⟨hlt, rfl⟩ := List.getElem?_eq_some_iff.mp hi
    obtain ⟨j, hj, rfl⟩ := List.mem_take_iff_getElem.mp hother
    exact h j i (by omega) hlt (by omega)
  · intro h i j hi hj hij
    exact h j _ (List.getElem?_eq_getElem hj) _ (List.mem_take_iff_getElem.mpr ⟨i, by omega, rfl⟩)

/-- Nothing is wrong with the queries of a valid batch. -/
theorem Batch.Valid.not_violates {b : Batch} (h : b.Valid) {i : Nat} {q : Query}
    (hi : b.queries[i]? = some q) (stage : Stage) (issue : Issue) :
    ¬ q.Violates (b.queries.take i) stage issue := by
  have hq : q ∈ b.queries := List.mem_of_getElem? hi
  intro hviolates
  cases hviolates with
  | blank hblank =>
    obtain ⟨c, hc, hnot⟩ := h.named q hq
    rw [hblank c hc] at hnot
    cases hnot
  | repeated _ hother hid => exact Query.nodup_iff.mp h.distinct i q hi _ hother hid
  | outOfRange hplace hout =>
    have hin := h.places q hq _ hplace
    omega
  | boxPath hbox hparse =>
    obtain ⟨path, hok⟩ := h.boxPaths q hq _ hbox
    cases hparse.symm.trans hok
  | expectedPath he htext hparse =>
    obtain ⟨path, hok⟩ := h.expectedPaths q hq _ he _ htext
    cases hparse.symm.trans hok
  | @fit e why he hclash =>
    cases htarget : q.target with
    | position place =>
      obtain ⟨htop, hbottom, hnothing⟩ := h.fitsPosition q hq e he place htarget
      rw [htarget] at hclash
      cases hclash with
      | corners _ hcorner => exact hcorner.elim (absurd htop) (absurd hbottom)
      | nothing _ _ _ hflag hnode => exact hnothing ⟨hflag, hnode⟩
    | boundingBox path =>
      obtain ⟨hpath, hkind, hflag⟩ := h.fitsBox q hq e he path htarget
      rw [htarget] at hclash
      cases hclash with
      | node _ hnode => simp [hpath, hkind, hflag] at hnode

/-- An expectation that clashes with no position gives no corners, and not nothing with a node. -/
theorem Expectation.fits_position {e : Expectation} (place : Position)
    (h : ∀ why, ¬ e.Clashes (.position place) why) :
    e.topLeft = none ∧ e.bottomRight = none ∧
      ¬ (e.nothing = true ∧ (e.path ≠ none ∨ e.kind ≠ none)) := by
  have hcorners : e.topLeft = none ∧ e.bottomRight = none := by
    constructor
    · apply Classical.byContradiction
      intro htop
      exact h _ (.corners place (Or.inl htop))
    · apply Classical.byContradiction
      intro hbottom
      exact h _ (.corners place (Or.inr hbottom))
  refine ⟨hcorners.1, hcorners.2, ?_⟩
  rintro ⟨hflag, hnode⟩
  exact h _ (.nothing place hcorners.1 hcorners.2 hflag hnode)

/-- One that clashes with no box gives nothing of a node. -/
theorem Expectation.fits_box {e : Expectation} (path : Option String)
    (h : ∀ why, ¬ e.Clashes (.boundingBox path) why) :
    e.path = none ∧ e.kind = none ∧ e.nothing = false := by
  have hnone : ¬ (e.path ≠ none ∨ e.kind ≠ none ∨ e.nothing = true) :=
    fun hnode => h _ (.node path hnode)
  rw [not_or, not_or, Classical.not_not, Classical.not_not, Bool.not_eq_true] at hnone
  exact hnone

/-- A batch with queries is valid if nothing is wrong with any of them. -/
theorem Batch.valid_of_not_violates {b : Batch} (hqueries : b.queries ≠ [])
    (h : ∀ (i : Nat) (q : Query), b.queries[i]? = some q → ∀ stage issue,
      ¬ q.Violates (b.queries.take i) stage issue) : b.Valid := by
  have hall : ∀ q ∈ b.queries, ∃ earlier, ∀ stage issue, ¬ q.Violates earlier stage issue := by
    intro q hq
    obtain ⟨i, hi⟩ := List.mem_iff_getElem?.mp hq
    exact ⟨_, h i q hi⟩
  constructor
  case queries => exact hqueries
  case named =>
    intro q hq
    obtain ⟨earlier, hnone⟩ := hall q hq
    apply Classical.byContradiction
    intro hblank
    refine hnone _ _ (.blank ?_)
    intro c hc
    cases hc' : Text.isBlank c with
    | true => rfl
    | false => exact absurd ⟨c, hc, hc'⟩ hblank
  case distinct =>
    refine Query.nodup_iff.mpr ?_
    intro i q hi other hother hid
    by_cases hblank : q.Blank
    · exact h i q hi _ _ (.blank hblank)
    · exact h i q hi _ _ (.repeated hblank hother hid)
  case places =>
    intro q hq place hplace
    obtain ⟨earlier, hnone⟩ := hall q hq
    have hin : ¬ (place.line < 1 ∨ place.column < 1) := fun hout => hnone _ _ (.outOfRange hplace hout)
    omega
  case boxPaths =>
    intro q hq text hbox
    obtain ⟨earlier, hnone⟩ := hall q hq
    cases hparse : Path.parse text with
    | ok path => exact ⟨path, rfl⟩
    | error error => exact absurd (.boxPath hbox hparse) (hnone _ _)
  case expectedPaths =>
    intro q hq e he text htext
    obtain ⟨earlier, hnone⟩ := hall q hq
    cases hparse : Path.parse text with
    | ok path => exact ⟨path, rfl⟩
    | error error => exact absurd (.expectedPath he htext hparse) (hnone _ _)
  case fitsPosition =>
    intro q hq e he place hplace
    obtain ⟨earlier, hnone⟩ := hall q hq
    refine Expectation.fits_position place ?_
    intro why hclash
    exact hnone _ _ (.fit he (hplace ▸ hclash))
  case fitsBox =>
    intro q hq e he path hbox
    obtain ⟨earlier, hnone⟩ := hall q hq
    refine Expectation.fits_box path ?_
    intro why hclash
    exact hnone _ _ (.fit he (hbox ▸ hclash))

/-! ## The check of a batch -/

/-- The issues of a batch with queries. -/
theorem Batch.issues_finds {b : Batch} (hqueries : b.queries ≠ []) :
    ∃ found : Nat → Stage → Option Issue,
      b.issues = (List.range b.queries.length).flatMap (fun i =>
        Stage.all.flatMap fun stage => (found i stage).toList) ∧
      ∀ (i : Nat) (q : Query), b.queries[i]? = some q → ∀ stage issue,
        found i stage = some issue ↔ q.Violates (b.queries.take i) stage issue := by
  have hnone : Query.Remembers [] [] := by
    intro id
    simp
  have hissues : b.issues = issuesAfter [] b.queries := by simp [Batch.issues, hqueries]
  rw [hissues]
  exact issuesAfter_finds hnone

/-- A batch with queries has no issue exactly if nothing is wrong with any of them. -/
theorem Batch.issues_eq_nil_iff {b : Batch} (hqueries : b.queries ≠ []) :
    b.issues = [] ↔ ∀ (i : Nat) (q : Query), b.queries[i]? = some q → ∀ stage issue,
      ¬ q.Violates (b.queries.take i) stage issue := by
  obtain ⟨found, hissues, hfound⟩ := Batch.issues_finds hqueries
  rw [hissues]
  simp only [List.flatMap_eq_nil_iff, List.mem_range, Option.toList_eq_nil_iff]
  constructor
  · intro h i q hi stage issue hviolates
    obtain ⟨hlt, -⟩ := List.getElem?_eq_some_iff.mp hi
    have hsome := (hfound i q hi stage issue).mpr hviolates
    rw [h i hlt stage stage.mem_all] at hsome
    cases hsome
  · intro h i hlt stage _
    have hi := List.getElem?_eq_getElem hlt
    apply Option.eq_none_iff_forall_ne_some.mpr
    intro issue hsome
    exact h i _ hi stage issue ((hfound i _ hi stage issue).mp hsome)

/-- **The check of a batch is sound and complete.** It finds no issue exactly if the batch is valid. For a
    batch without queries the one issue is that there are none. For any other, the issues are those of the
    queries in their order, and of each query those of its stages in their order, one for each stage in
    which something is wrong with the query, given the queries in front of it. -/
theorem Batch.issues_sound_complete (b : Batch) :
    (b.issues = [] ↔ b.Valid) ∧
    (b.queries = [] → b.issues = [.noQueries]) ∧
    (b.queries ≠ [] → ∃ found : Nat → Stage → Option Issue,
      b.issues = (List.range b.queries.length).flatMap (fun i =>
        Stage.all.flatMap fun stage => (found i stage).toList) ∧
      ∀ (i : Nat) (q : Query), b.queries[i]? = some q → ∀ stage issue,
        found i stage = some issue ↔ q.Violates (b.queries.take i) stage issue) := by
  by_cases hqueries : b.queries = []
  · have hissues : b.issues = [.noQueries] := by simp [Batch.issues, hqueries]
    refine ⟨⟨?_, ?_⟩, fun _ => hissues, absurd hqueries⟩
    · intro h
      rw [hissues] at h
      cases h
    · intro h
      exact absurd hqueries h.queries
  · refine ⟨?_, fun h => absurd h hqueries, Batch.issues_finds⟩
    rw [Batch.issues_eq_nil_iff hqueries]
    constructor
    · exact Batch.valid_of_not_violates hqueries
    · intro h i q hi
      exact h.not_violates hi

/-- A place in front of the first line, then the same name again for a box that expects a kind: the second
    query has an issue in its first stage and in its last. -/
theorem Batch.issues_sound_complete_pair :
    let b : Batch :=
      ⟨{}, [⟨"a", .position ⟨0, 1⟩, none⟩, ⟨"a", .boundingBox none, some { kind := some "k" }⟩]⟩
    b.issues = [.clash "a" (.outOfRange ⟨0, 1⟩), .duplicateId "a", .clash "a" .nodeOfBox] ∧
      ¬ b.Valid ∧
      ∃ found : Nat → Stage → Option Issue,
        b.issues = (List.range 2).flatMap (fun i =>
          Stage.all.flatMap fun stage => (found i stage).toList) ∧
        found 1 .name = some (.duplicateId "a") := by
  intro b
  have hissues : b.issues =
      [.clash "a" (.outOfRange ⟨0, 1⟩), .duplicateId "a", .clash "a" .nodeOfBox] := by decide
  obtain ⟨hvalid, -, hqueries⟩ := Batch.issues_sound_complete b
  obtain ⟨found, hfound, hstages⟩ := hqueries (by decide)
  refine ⟨hissues, ?_, found, hfound, ?_⟩
  · intro h
    cases hissues.symm.trans (hvalid.mpr h)
  · refine (hstages 1 _ rfl .name _).mpr (.repeated ?_ List.mem_cons_self rfl)
    intro hblank
    exact absurd (hblank 'a' (by decide)) (by decide)

end LosslessTree
