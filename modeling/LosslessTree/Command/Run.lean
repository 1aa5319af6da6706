import LosslessTree.Command.Arguments
import LosslessTree.Command.Report
import LosslessTree.Query.File
import LosslessTree.Query.Outcome

/-!
# `Command.Run` — what the commands do

Each command reads its files, asks the library, and turns the answer into a report. Reading is given
as a function from names to texts, so a run is a function of the files and the arguments.

The exit status is 0 if the answer is a node, a box, a text, or a batch of which every query is
resolved; 1 if not; 2 if the arguments do not fit.
-/

namespace LosslessTree

/-- What a run depends on beside its arguments. -/
structure Environment where
  /-- Reads a file. -/
  read : String → Except FileError String
  /-- Whether marks and headings are coloured. -/
  colours : Bool

namespace Command

/-- The files that a command reads. -/
def files : Command → List String
  | .locate tree _ _ _ => [tree]
  | .bbox tree _ _ => [tree]
  | .render tree => [tree]
  | .run tree queries _ => [tree, queries]

/-- The report of an arithmetic overflow. -/
def overflowReport (e : Overflow) : Report := { exit := 101, err := e.message ++ "\n" }

/-- Goes on with the tree in a file, or reports why there is none. -/
def withTree (env : Environment) (name : String) (next : Node → Report) : Report :=
  match Node.ofFile name (env.read name) with
  | .ok tree => next tree
  | .error e =>
    Report.failure ("Could not load tree from " ++ name) [e.message, e.cause]

/-! ## `locate` -/

/-- The answer of `locate` as a JSON value. -/
def locationJson (p : Position) (found : Option (Path × String)) : Json :=
  let path := match found with
    | some (path, _) => path.toJson
    | none => .null
  let kind := match found with
    | some (_, kind) => .string kind
    | none => .null
  .object [("line", .integer p.line), ("column", .integer p.column), ("path", path),
    ("kind", kind)]

/-- The answer of `locate` as a line of text. -/
def locationLine (colours : Bool) (p : Position) : Option (Path × String) → String
  | some (path, kind) =>
    Style.green.paint colours "✓" ++ " " ++ p.text ++ " -> " ++
      Style.bold.paint colours path.shown ++ " " ++
      Style.dimmed.paint colours ("(" ++ kind ++ ")")
  | none => Style.yellow.paint colours "⊘" ++ " " ++ p.text ++ " is outside the rendered text"

/-- The report on the node at a position, given by path and kind. -/
def locationReport (colours json : Bool) (p : Position) (found : Option (Path × String)) : Report :=
  let text := if json then (locationJson p found).pretty else locationLine colours p found
  { exit := if found.isSome then 0 else 1, out := text ++ "\n" }

/-- Finds the node at a position. -/
def locateIn (colours json : Bool) (p : Position) (tree : Node) : Report :=
  match tree.pathAt p with
  | .error e => overflowReport e
  | .ok none => locationReport colours json p none
  | .ok (some path) =>
    match tree.descend path with
    | .ok node => locationReport colours json p (some (path, node.kindName))
    | .error e => Report.failure e.message []

/-! ## `bbox` -/

/-- The answer of `bbox` as a line of text. -/
def boxLine (colours : Bool) (path : Path) (box : BoundingBox) (span : Int) : String :=
  let lines := if span = 1 then "1 line" else toString span ++ " lines"
  Style.green.paint colours "✓" ++ " " ++ Style.bold.paint colours path.shown ++ ": " ++
    box.topLeft.text ++ " -> " ++ box.bottomRight.text ++ " " ++
    Style.dimmed.paint colours ("(" ++ lines ++ ")")

/-- Measures the node at a path. -/
def boxIn (colours json : Bool) (path : Path) (tree : Node) : Report :=
  match tree.boxAt path with
  | .error (.overflow e) => overflowReport e
  | .error e => Report.failure e.message []
  | .ok box =>
    if json then { out := box.toJson.pretty ++ "\n" }
    else
      match box.lineSpan with
      | .ok span => { out := boxLine colours path box span ++ "\n" }
      | .error e => overflowReport e

/-- Measures the node at a path given as text; without one, the whole tree. -/
def boxOfText (colours json : Bool) (path : Option String) (tree : Node) : Report :=
  match path with
  | none => boxIn colours json Path.root tree
  | some text =>
    match Path.parse text with
    | .ok path => boxIn colours json path tree
    | .error e => Report.failure e.message []

/-! ## `run` -/

/-- The lines on successful queries. -/
def successLines (colours : Bool) (outcomes : List Outcome) : String :=
  String.join ((outcomes.filter (·.isSuccess)).map fun o =>
    Style.green.paint colours "✓" ++ " " ++ o.text ++ "\n")

/-- The lines on all other queries. -/
def failureLines (colours : Bool) (outcomes : List Outcome) : String :=
  String.join ((outcomes.filter (!·.isSuccess)).map fun o =>
    Style.red.paint colours "✗" ++ " " ++ o.text ++ "\n")

/-- The line that announces a batch. -/
def heading (colours : Bool) (file : String) (batch : Batch) : String :=
  let name := if batch.about.name.isEmpty then file else batch.about.name
  Style.bold.paint colours
    ("Running " ++ name ++ " (" ++ toString batch.queries.length ++ " queries)")

/-- The line that counts the outcomes. -/
def summary (colours : Bool) (passed failed : Nat) : String :=
  "Summary: " ++ Style.green.paint colours (toString passed) ++ " passed, " ++
    Style.red.paint colours (toString failed) ++ " failed"

/-- The report on the outcomes of a batch. -/
def outcomeReport (colours json : Bool) (file : String) (batch : Batch) (outcomes : List Outcome) :
    Report :=
  let failed := outcomes.countP (!·.isSuccess)
  let exit := if 0 < failed then 1 else 0
  if json then { exit, out := (Json.array (outcomes.map Outcome.toJson)).pretty ++ "\n" }
  else
    { exit
      out := heading colours file batch ++ "\n" ++ successLines colours outcomes ++ "\n" ++
        summary colours (outcomes.length - failed) failed ++ "\n"
      err := failureLines colours outcomes }

/-- Runs the batch in a file. -/
def batchIn (env : Environment) (json : Bool) (file : String) (tree : Node) : Report :=
  match Batch.ofFile file (env.read file) with
  | .error e => Report.failure e.message [e.cause]
  | .ok batch =>
    match batch.run tree with
    | .ok outcomes => outcomeReport env.colours json file batch outcomes
    | .error e => overflowReport e

/-! ## All commands -/

/-- Does what a command says. -/
def execute (env : Environment) : Command → Report
  | .locate tree line column json =>
    withTree env tree (locateIn env.colours json ⟨line, column⟩)
  | .bbox tree path json => withTree env tree (boxOfText env.colours json path)
  | .render tree => withTree env tree fun node => { out := node.render }
  | .run tree queries json => withTree env tree (batchIn env json queries)

end Command

/-! ## Requests -/

/-- The name of the program. -/
def programName : String := "fst-locator"

/-- The version of the program. -/
def programVersion : String := "0.1.0"

/-- The help text, of the program or of one command. -/
def helpText : Option Command.Name → String
  | some name =>
    let json := if name.takesJson then "      --json        Print the answer as JSON\n" else ""
    name.summary ++ "\n\nUsage: " ++ programName ++ " " ++ name.text ++ " [OPTIONS] " ++
      name.arguments ++ "\n\nOptions:\n" ++ json ++
      "  -v, --verbose...  Increase log verbosity (-v debug, -vv trace)\n" ++
      "  -h, --help        Print help\n"
  | none =>
    let line := fun name : Command.Name =>
      "  " ++ name.text ++ String.ofList (List.replicate (8 - name.text.length) ' ') ++
        name.summary ++ "\n"
    "Map cursor positions to paths and bounding boxes in lossless syntax trees\n\nUsage: " ++
      programName ++ " [OPTIONS] <COMMAND>\n\nCommands:\n" ++ line .locate ++ line .bbox ++
      line .render ++ line .run ++
      "  help    Print this message or the help of the given subcommand(s)\n\nOptions:\n" ++
      "  -v, --verbose...  Increase log verbosity (-v debug, -vv trace)\n" ++
      "  -h, --help        Print help\n" ++
      "  -V, --version     Print version\n"

/-- The report on arguments that do not fit. -/
def usageReport (e : UsageError) : Report :=
  { exit := 2
    err := "error: " ++ e.message ++ "\n\nUsage: " ++ programName ++ " [OPTIONS] <COMMAND>\n\n" ++
      "For more information, try '--help'.\n" }

/-- Does what the arguments ask for. -/
def Request.execute (env : Environment) : Request → Report
  | .version => { out := programName ++ " " ++ programVersion ++ "\n" }
  | .help name => { out := helpText name }
  | .command c => c.execute env

/-- The report of a run of the program with the given arguments. -/
def runProgram (env : Environment) (arguments : List String) : Report :=
  match Request.parse arguments with
  | .ok request => request.execute env
  | .error e => usageReport e

end LosslessTree
