import LosslessTree.Proofs.BoxOrder
import LosslessTree.Proofs.Outcomes
import LosslessTree.Proofs.PrintedReports
import LosslessTree.Proofs.TreeRereading

/-!
# `Proofs.ExitStatus` — what the exit status of a run tells

A command reads a tree, asks for something, and ends with status 0 if it has an answer and with status 1 if
not. `Command.Succeeds` says what an answer is, in terms of what the files hold and what the library
finds: a node at the position, a node at the path, or a batch of which every query is resolved.

Between asking and reporting every command does something that could fail on its own: the path found is
followed once more for the kind of its node, the lines of a box are counted, and a position can leave the
range of coordinates. For the tree of a file, in which names are distinct, and which fits, none of it does,
so that no other status is left. What a command that succeeds prints is said by `Command.Reports`, down to
the texts of `Proofs.PrintedReports`.

## Contents
- **Files.** `Environment.HoldsTree`, `Environment.HoldsBatch`.
- **`Report.Answers`**, a status that tells whether something holds.
- **Commands.** `Command.locateIn_answers`, `Command.boxOfText_answers`, `Command.batchIn_answers`.
- **`runProgram_exit`**, from `Command.Succeeds` and `Command.Reports`.
-/

namespace LosslessTree

/-! ## Files -/

/-- A text is taken for a batch if it is a document that fits the schema, and nothing is wrong with it. -/
theorem Batch.ofToml_eq_ok_iff {text : String} {batch : Batch} :
    Batch.ofToml text = .ok batch ↔
      ∃ document, Toml.parse? text = some document ∧
        Toml.reading.batch (.table document) = some batch ∧ batch.issues = [] := by
  unfold Batch.ofToml
  cases Toml.parse? text with
  | none => simp
  | some document =>
    cases hbatch : Toml.reading.batch (.table document) with
    | none => simp [hbatch]
    | some found =>
      by_cases hissues : found.issues = []
      · simp only [hissues, List.isEmpty_nil, if_true, Except.ok.injEq, Option.some.injEq,
          exists_eq_left', hbatch]
        constructor
        · rintro rfl
          exact ⟨rfl, hissues⟩
        · exact And.left
      · simp only [List.isEmpty_iff, hissues, if_false, reduceCtorEq, Option.some.injEq,
          exists_eq_left', hbatch, false_iff]
        rintro ⟨rfl, h⟩
        exact hissues h

namespace Environment

variable {env : Environment} {name : String}

/-- The file holds a text that spells the tree. -/
def HoldsTree (env : Environment) (name : String) (tree : Node) : Prop :=
  ∃ text, env.read name = .ok text ∧ Node.ofJsonText text = .ok tree

/-- The file holds a text that spells the batch, and nothing is wrong with the batch. -/
def HoldsBatch (env : Environment) (name : String) (batch : Batch) : Prop :=
  ∃ text document, env.read name = .ok text ∧ Toml.parse? text = some document ∧
    Toml.reading.batch (.table document) = some batch ∧ batch.issues = []

theorem holdsTree_iff {tree : Node} :
    env.HoldsTree name tree ↔ Node.ofFile name (env.read name) = .ok tree := by
  unfold HoldsTree Node.ofFile
  cases env.read name with
  | error e => simp
  | ok text => cases hnode : Node.ofJsonText text <;> simp [hnode]

theorem holdsBatch_iff {batch : Batch} :
    env.HoldsBatch name batch ↔ Batch.ofFile name (env.read name) = .ok batch := by
  unfold HoldsBatch Batch.ofFile
  cases env.read name with
  | error e => simp
  | ok text =>
    have htext : (∃ document, Toml.parse? text = some document ∧
        Toml.reading.batch (.table document) = some batch ∧ batch.issues = []) ↔
        Batch.ofToml text = .ok batch := Batch.ofToml_eq_ok_iff.symm
    cases hbatch : Batch.ofToml text <;> simp [htext, hbatch]

/-- A file holds no two trees. -/
theorem HoldsTree.unique {tree other : Node} (h : env.HoldsTree name tree)
    (h' : env.HoldsTree name other) : tree = other :=
  Except.ok.inj ((holdsTree_iff.mp h).symm.trans (holdsTree_iff.mp h'))

/-- A file holds no two batches. -/
theorem HoldsBatch.unique {batch other : Batch} (h : env.HoldsBatch name batch)
    (h' : env.HoldsBatch name other) : batch = other :=
  Except.ok.inj ((holdsBatch_iff.mp h).symm.trans (holdsBatch_iff.mp h'))

theorem HoldsBatch.valid {batch : Batch} (h : env.HoldsBatch name batch) : batch.issues = [] := by
  obtain ⟨text, document, -, -, -, hvalid⟩ := h
  exact hvalid

/-- The names in a tree that was read are distinct. -/
theorem HoldsTree.distinct {tree : Node} (h : env.HoldsTree name tree) : tree.Distinct := by
  obtain ⟨text, -, htree⟩ := h
  exact (Node.within_of_ofJsonText htree).1

end Environment

/-! ## Status -/

/-- The report tells by its status whether `answered` holds. -/
def Report.Answers (report : Report) (answered : Prop) : Prop :=
  (report.exit = 0 ∧ answered) ∨ (report.exit = 1 ∧ ¬ answered)

theorem Report.Answers.exit_iff {report : Report} {answered : Prop} (h : report.Answers answered) :
    (report.exit = 0 ↔ answered) ∧ (report.exit = 1 ↔ ¬ answered) := by
  rcases h with ⟨hexit, hanswered⟩ | ⟨hexit, hanswered⟩
  · simp [hexit, hanswered]
  · simp [hexit, hanswered]

namespace Command

variable {env : Environment} {name : String} {tree : Node}

/-- A command goes on with the tree that its file holds. -/
theorem withTree_of_holds (h : env.HoldsTree name tree) (next : Node → Report) :
    withTree env name next = next tree := by
  rw [withTree, Environment.holdsTree_iff.mp h]

/-- A command whose report on a tree tells whether something holds of it tells whether its file holds a tree
    of which that holds. -/
theorem withTree_answers {next : Node → Report} {answered : Node → Prop}
    (h : ∀ tree, env.HoldsTree name tree → (next tree).Answers (answered tree)) :
    (withTree env name next).Answers (∃ tree, env.HoldsTree name tree ∧ answered tree) := by
  unfold withTree
  cases hfile : Node.ofFile name (env.read name) with
  | error e =>
    refine Or.inr ⟨rfl, ?_⟩
    rintro ⟨tree, hholds, -⟩
    rw [Environment.holdsTree_iff, hfile] at hholds
    cases hholds
  | ok tree =>
    -- no other tree is held by the file, so that the report on this one decides
    have hholds := Environment.holdsTree_iff.mpr hfile
    rcases h tree hholds with ⟨hexit, hanswered⟩ | ⟨hexit, hanswered⟩
    · exact Or.inl ⟨hexit, tree, hholds, hanswered⟩
    · refine Or.inr ⟨hexit, ?_⟩
      rintro ⟨other, hother, hanswered'⟩
      obtain rfl := hholds.unique hother
      exact hanswered hanswered'

/-! ## `locate` -/

/-- The path found is reported with the kind of its node. -/
theorem locateIn_of_found {place : Position} {path : Path} (hd : tree.Distinct) (hfits : tree.Fits)
    (h : tree.pathAt place = .ok (some path)) (colours json : Bool) :
    ∃ node, tree.descend path = .ok node ∧
      locateIn colours json place tree =
        locationReport colours json place (some (path, node.kindName)) := by
  obtain ⟨found, r, hfound, hshows, -⟩ := resolve_position hd hfits place
  cases h.symm.trans hfound
  obtain ⟨node, hnode, -⟩ := hshows
  refine ⟨node, hnode, ?_⟩
  simp only [locateIn, h, hnode]

theorem locateIn_answers (hd : tree.Distinct) (hfits : tree.Fits) (colours json : Bool)
    (place : Position) :
    (locateIn colours json place tree).Answers (∃ path, tree.pathAt place = .ok (some path)) := by
  obtain ⟨found, -, hfound, -⟩ := resolve_position hd hfits place
  cases found with
  | none =>
    refine Or.inr ⟨?_, ?_⟩
    · simp [locateIn, hfound, locationReport]
    · rintro ⟨path, hpath⟩
      cases hfound.symm.trans hpath
  | some path =>
    obtain ⟨node, -, hreport⟩ := locateIn_of_found hd hfits hfound colours json
    rw [hreport]
    exact Or.inl ⟨rfl, path, hfound⟩

/-! ## `bbox` -/

theorem boxIn_answers (hd : tree.Distinct) (hfits : tree.Fits) (colours json : Bool) (path : Path) :
    (boxIn colours json path tree).Answers (∃ node, tree.descend path = .ok node) := by
  cases hreach : tree.reach path with
  | none =>
    have hmissing := Node.descend_eq_error_iff.mpr hreach
    have hbox := (Node.boxAt_eq_noSuchPath_iff hd hfits).mpr hmissing
    refine Or.inr ⟨?_, ?_⟩
    · simp [boxIn, hbox, Report.failure]
    · rintro ⟨node, hnode⟩
      rw [Node.descend_eq_ok_iff, hreach] at hnode
      cases hnode
  | some node =>
    -- a report in words also counts lines, which could overflow for corners out of range
    obtain ⟨box, span, hbox, hspan⟩ := Node.exists_lineSpan hd hfits hreach
    refine Or.inl ⟨?_, node, Node.descend_eq_ok_iff.mpr hreach⟩
    cases json <;> simp [boxIn, hbox, hspan]

theorem boxOfText_answers (hd : tree.Distinct) (hfits : tree.Fits) (colours json : Bool)
    (text : Option String) :
    (boxOfText colours json text tree).Answers
      (∃ path node, Target.Spells text path ∧ tree.descend path = .ok node) := by
  -- the path that the text spells, if it spells one, decides
  have hspelled : ∀ path, (∀ other, Target.Spells text other ↔ other = path) →
      boxOfText colours json text tree = boxIn colours json path tree →
      (boxOfText colours json text tree).Answers
        (∃ path node, Target.Spells text path ∧ tree.descend path = .ok node) := by
    intro path hpath hreport
    rw [hreport]
    simpa [hpath] using boxIn_answers hd hfits colours json path
  cases text with
  | none => exact hspelled Path.root (fun other => Iff.rfl) rfl
  | some text =>
    cases hparse : Path.parse text with
    | ok path =>
      apply hspelled path
      · intro other
        simp [Target.Spells, hparse, eq_comm]
      · simp [boxOfText, hparse]
    | error e =>
      refine Or.inr ⟨?_, ?_⟩
      · simp [boxOfText, hparse, Report.failure]
      · rintro ⟨path, node, hspells, -⟩
        cases hparse.symm.trans hspells

/-! ## `run` -/

end Command

/-- The query was resolved as expected. -/
def Outcome.IsResolved (o : Outcome) : Prop := ∃ id resolution, o = .resolved id resolution

theorem Outcome.isSuccess_iff {o : Outcome} : o.isSuccess = true ↔ o.IsResolved := by
  cases o <;> simp [isSuccess, IsResolved]

instance (o : Outcome) : Decidable o.IsResolved := decidable_of_iff _ Outcome.isSuccess_iff

namespace Command

variable {env : Environment} {name : String} {tree : Node}

/-- A valid batch comes to as many outcomes as it has queries. -/
theorem exists_run (hd : tree.Distinct) (hfits : tree.Fits) {batch : Batch} (hvalid : batch.issues = []) :
    ∃ outcomes, batch.run tree = .ok outcomes ∧ outcomes.length = batch.queries.length := by
  obtain ⟨outcomes, hrun, hall⟩ := exists_mapM_eq_ok (f := Query.run tree) fun q hq =>
    Query.exists_classified hd hfits (Batch.targetIssues_eq_nil hvalid hq)
  exact ⟨outcomes, hrun, hall.length_eq.symm⟩

/-- No failure is counted exactly if every query is resolved. -/
theorem countP_failed_eq_zero_iff {outcomes : List Outcome} :
    outcomes.countP (!·.isSuccess) = 0 ↔ ∀ o ∈ outcomes, o.IsResolved := by
  rw [List.countP_eq_zero]
  simp [Outcome.isSuccess_iff]

/-- The status of a batch that was run tells whether every query is resolved. -/
theorem outcomeReport_answers (colours json : Bool) (file : String) (batch : Batch)
    (outcomes : List Outcome) :
    (outcomeReport colours json file batch outcomes).Answers (∀ o ∈ outcomes, o.IsResolved) := by
  -- the status is the same in words and in JSON
  have hexit : (outcomeReport colours json file batch outcomes).exit =
      if 0 < outcomes.countP (!·.isSuccess) then 1 else 0 := by
    cases json <;> rfl
  unfold Report.Answers
  rw [hexit, ← countP_failed_eq_zero_iff]
  by_cases hfailed : outcomes.countP (!·.isSuccess) = 0
  · exact Or.inl ⟨by simp [hfailed], hfailed⟩
  · exact Or.inr ⟨if_pos (Nat.pos_of_ne_zero hfailed), hfailed⟩

/-- The last line in words has two numbers: together all outcomes, and those that are not resolved. -/
theorem outcomeReport_counts (colours : Bool) (file : String) (batch : Batch)
    (outcomes : List Outcome) :
    ∃ above last passed failed,
      (outcomeReport colours false file batch outcomes).out = above ++ "\n" ++ last ∧
      ShowsCounts colours passed failed last ∧
      passed + failed = outcomes.length ∧ failed = outcomes.countP (¬ ·.IsResolved) := by
  have hcount : outcomes.countP (!·.isSuccess) = outcomes.countP (¬ ·.IsResolved) := by
    apply List.countP_congr
    intro o _
    simp [← Outcome.isSuccess_iff]
  refine ⟨heading colours file batch ++ "\n" ++ successLines colours outcomes, _,
    outcomes.length - outcomes.countP (!·.isSuccess), outcomes.countP (!·.isSuccess), ?_,
    showsCounts_summary _ _, ?_, hcount⟩
  · simp [outcomeReport, String.append_assoc]
  · exact Nat.sub_add_cancel List.countP_le_length

/-- A batch that its file holds is run and reported. -/
theorem batchIn_of_holds {batch : Batch} {outcomes : List Outcome} (h : env.HoldsBatch name batch)
    (hrun : batch.run tree = .ok outcomes) (json : Bool) :
    batchIn env json name tree = outcomeReport env.colours json name batch outcomes := by
  simp only [batchIn, Environment.holdsBatch_iff.mp h, hrun]

theorem batchIn_answers (hd : tree.Distinct) (hfits : tree.Fits) (json : Bool) :
    (batchIn env json name tree).Answers
      (∃ batch outcomes, env.HoldsBatch name batch ∧ batch.run tree = .ok outcomes ∧
        ∀ o ∈ outcomes, o.IsResolved) := by
  cases hfile : Batch.ofFile name (env.read name) with
  | error e =>
    refine Or.inr ⟨?_, ?_⟩
    · simp [batchIn, hfile, Report.failure]
    · rintro ⟨batch, outcomes, hholds, -⟩
      cases hfile.symm.trans (Environment.holdsBatch_iff.mp hholds)
  | ok batch =>
    have hholds := Environment.holdsBatch_iff.mpr hfile
    obtain ⟨outcomes, hrun, -⟩ := exists_run hd hfits hholds.valid
    rw [batchIn_of_holds hholds hrun]
    rcases outcomeReport_answers env.colours json name batch outcomes with
      ⟨hexit, hresolved⟩ | ⟨hexit, hresolved⟩
    · exact Or.inl ⟨hexit, batch, outcomes, hholds, hrun, hresolved⟩
    · refine Or.inr ⟨hexit, ?_⟩
      rintro ⟨other, outcomes', hother, hrun', hresolved'⟩
      obtain rfl := hholds.unique hother
      cases hrun.symm.trans hrun'
      exact hresolved hresolved'

/-! ## All commands -/

/-- The file that a command reads its tree from. -/
def treeFile : Command → String
  | .locate file _ _ _ => file
  | .bbox file _ _ => file
  | .render file => file
  | .run file _ _ => file

/-- There is an answer to what the command asks for. -/
def Succeeds (env : Environment) : Command → Prop
  | .locate file line column _ =>
    ∃ tree, env.HoldsTree file tree ∧ ∃ path, tree.pathAt ⟨line, column⟩ = .ok (some path)
  | .bbox file text _ =>
    ∃ tree, env.HoldsTree file tree ∧
      ∃ path node, Target.Spells text path ∧ tree.descend path = .ok node
  | .render file => ∃ tree, env.HoldsTree file tree
  | .run file queries _ =>
    ∃ tree, env.HoldsTree file tree ∧
      ∃ batch outcomes, env.HoldsBatch queries batch ∧ batch.run tree = .ok outcomes ∧
        ∀ o ∈ outcomes, o.IsResolved

/-- What the report of a command says. Where a path is found at a position, it leads to a node, and path and
    kind of that node are printed, in JSON or in words. Where a batch is run and the answer is not asked for
    in JSON, the last line has two numbers: those that passed and those that failed are together as many
    as there are queries, and those that failed are as many as there are outcomes that are not resolved. -/
def Reports (env : Environment) (report : Report) : Command → Prop
  | .locate file line column json =>
    ∀ tree path, env.HoldsTree file tree → tree.pathAt ⟨line, column⟩ = .ok (some path) →
      ∃ node, tree.descend path = .ok node ∧
        if json then JsonShowsNode ⟨line, column⟩ path node.kindName report.out
        else ShowsNode env.colours ⟨line, column⟩ path node.kindName report.out
  | .run file queries false =>
    ∀ tree batch, env.HoldsTree file tree → env.HoldsBatch queries batch →
      ∃ outcomes above last passed failed, batch.run tree = .ok outcomes ∧
        report.out = above ++ "\n" ++ last ∧ ShowsCounts env.colours passed failed last ∧
        passed + failed = batch.queries.length ∧ failed = outcomes.countP (¬ ·.IsResolved)
  | _ => True

/-- The status of a command tells whether it succeeds. -/
theorem execute_answers {c : Command} (hfits : ∀ tree, env.HoldsTree c.treeFile tree → tree.Fits) :
    (c.execute env).Answers (c.Succeeds env) := by
  cases c with
  | locate file line column json =>
    exact withTree_answers fun tree h => locateIn_answers h.distinct (hfits tree h) _ _ _
  | bbox file text json =>
    exact withTree_answers fun tree h => boxOfText_answers h.distinct (hfits tree h) _ _ _
  | render file =>
    have hrendered : ((Command.render file).execute env).Answers
        (∃ tree, env.HoldsTree file tree ∧ True) :=
      withTree_answers fun tree _ => Or.inl ⟨rfl, trivial⟩
    simpa only [Succeeds, and_true] using hrendered
  | run file queries json =>
    exact withTree_answers fun tree h => batchIn_answers h.distinct (hfits tree h) _

theorem execute_reports {c : Command} (hfits : ∀ tree, env.HoldsTree c.treeFile tree → tree.Fits) :
    c.Reports env (c.execute env) := by
  cases c with
  | locate file line column json =>
    intro tree path hholds hpath
    obtain ⟨node, hnode, hreport⟩ := locateIn_of_found hholds.distinct (hfits tree hholds) hpath
      env.colours json
    refine ⟨node, hnode, ?_⟩
    rw [execute, withTree_of_holds hholds, hreport]
    cases json with
    | true => exact jsonShowsNode_locationJson
    | false => exact showsNode_locationLine
  | bbox file text json => trivial
  | render file => trivial
  | run file queries json =>
    cases json with
    | true => trivial
    | false =>
      intro tree batch hholds hbatch
      obtain ⟨outcomes, hrun, hlength⟩ :=
        exists_run hholds.distinct (hfits tree hholds) hbatch.valid
      obtain ⟨above, last, passed, failed, hout, hlast, hsum, hfailed⟩ :=
        outcomeReport_counts env.colours queries batch outcomes
      refine ⟨outcomes, above, last, passed, failed, hrun, ?_, hlast, hsum.trans hlength, hfailed⟩
      rw [execute, withTree_of_holds hholds, batchIn_of_holds hbatch hrun, hout]

end Command

/-- **Exit status.** For arguments that name a command, whose tree, if its file holds one, fits: the program
    ends with status 0 exactly if the command succeeds, with status 1 exactly if it does not, and its
    report says what `Command.Reports` asks for. -/
theorem runProgram_exit (env : Environment) (arguments : List String) (c : Command)
    (hparse : Request.parse arguments = .ok (.command c))
    (hfits : ∀ tree, env.HoldsTree c.treeFile tree → tree.Fits) :
    ((runProgram env arguments).exit = 0 ↔ c.Succeeds env) ∧
      ((runProgram env arguments).exit = 1 ↔ ¬ c.Succeeds env) ∧
      c.Reports env (runProgram env arguments) := by
  have hrun : runProgram env arguments = c.execute env := by
    rw [runProgram, hparse]
    rfl
  rw [hrun]
  obtain ⟨hzero, hone⟩ := (Command.execute_answers hfits).exit_iff
  exact ⟨hzero, hone, Command.execute_reports hfits⟩

/-- A list of two texts and a batch of two queries, of which the second asks for an element that is not
    there: the position of the first query can be located, and the batch ends with status 1 and one failure
    in its last line. -/
theorem runProgram_exit_batch :
    let tree := "[\"ab\", \"c\"]"
    let queries := "[[queries]]\nid = \"p\"\ntarget = [\"position\", 1, 3]\n" ++
      "[[queries]]\nid = \"q\"\ntarget = [\"bounding-box\", \"2\"]\n"
    let env : Environment :=
      ⟨fun name => if name = "t" then .ok tree else if name = "q" then .ok queries
        else .error .notFound, false⟩
    (runProgram env ["locate", "t", "1", "3"]).exit = 0 ∧
      (runProgram env ["locate", "t", "1", "3"]).out = "✓ 1:3 -> 1 (constant)\n" ∧
      (runProgram env ["locate", "t", "1", "3", "--json"]).out =
        "\x7b\n  \"line\": 1,\n  \"column\": 3,\n  \"path\": [\n    1\n  ],\n  \"kind\": \"constant\"\n\x7d\n" ∧
      (runProgram env ["run", "t", "q"]).exit = 1 ∧
      ∃ above, (runProgram env ["run", "t", "q"]).out =
        above ++ "\n" ++ "Summary: 1 passed, 1 failed\n" := by
  intro tree queries env
  have htree : env.HoldsTree "t" (.list [.constant "ab", .constant "c"]) :=
    ⟨tree, rfl, by decide +kernel⟩
  have hbatch : env.HoldsBatch "q"
      ⟨{}, [⟨"p", .position ⟨1, 3⟩, none⟩, ⟨"q", .boundingBox (some "2"), none⟩]⟩ :=
    Environment.holdsBatch_iff.mpr (by decide +kernel)
  have hfits : ∀ other, env.HoldsTree "t" other → other.Fits := by
    intro other hother
    rw [← htree.unique hother]
    decide
  have hlocate := runProgram_exit env ["locate", "t", "1", "3"] (.locate "t" 1 3 false)
    (by decide +kernel) hfits
  have hjson := runProgram_exit env ["locate", "t", "1", "3", "--json"] (.locate "t" 1 3 true)
    (by decide +kernel) hfits
  have hrun := runProgram_exit env ["run", "t", "q"] (.run "t" "q" false) (by decide +kernel) hfits
  have hfound : (Node.list [.constant "ab", .constant "c"]).pathAt ⟨1, 3⟩ = .ok (some [.index 1]) := by
    rfl
  have houtcomes : Batch.run (.list [.constant "ab", .constant "c"])
      ⟨{}, [⟨"p", .position ⟨1, 3⟩, none⟩, ⟨"q", .boundingBox (some "2"), none⟩]⟩ =
      .ok [.resolved "p" (.node [.index 1] "constant"),
        .failed "q" (.missingKey ⟨[], .index 2, none⟩)] := by decide +kernel
  refine ⟨hlocate.1.mpr ⟨_, htree, [.index 1], hfound⟩, ?_, ?_, hrun.2.1.mpr ?_, ?_⟩
  · obtain ⟨node, hnode, mark, path, kind, rfl, rfl, rfl, hout⟩ := hlocate.2.2 _ _ htree hfound
    cases hnode
    rw [hout]
    decide
  · obtain ⟨node, hnode, hout, -⟩ := hjson.2.2 _ _ htree hfound
    cases hnode
    rw [hout]
    decide
  · rintro ⟨other, hother, batch, outcomes, hholds, hrun', hresolved⟩
    obtain rfl := htree.unique hother
    obtain rfl := hbatch.unique hholds
    cases hrun'.symm.trans houtcomes
    obtain ⟨id, resolution, h⟩ := hresolved _ (List.mem_cons_of_mem _ List.mem_cons_self)
    cases h
  · obtain ⟨outcomes, above, last, passed, failed, hrun', hout, ⟨n, m, rfl, rfl, hlast⟩, hsum, hfailed⟩ :=
      hrun.2.2 _ _ htree hbatch
    cases hrun'.symm.trans houtcomes
    obtain rfl : failed = 1 := hfailed.trans (by decide)
    obtain rfl : passed = 1 := Nat.succ.inj hsum
    have hline : "Summary: " ++ toString 1 ++ " passed, " ++ toString 1 ++ " failed\n" =
        "Summary: 1 passed, 1 failed\n" := by decide
    exact ⟨above, by rw [hout, hlast, hline]⟩

end LosslessTree
