import LosslessTree.Json.Reading
import LosslessTree.Query.Issue
import LosslessTree.Toml.Reading

/-!
# `Query.Schema` — batches as data

A batch is a record with `meta` and `queries`, the latter a sequence of records with `id`, `target` and
`expect`. A target names its type: `position` with `line` and `column`, or `bounding-box` with an
optional `path`; as a sequence it starts with the type and must not be longer than needed. A target is
taken as a whole before its type is looked at.

The same schema is read from TOML, the format of query files, and from JSON. A batch in a query file
is also checked: it is only taken if no issue is found.
-/

namespace LosslessTree

namespace Reading

variable {ν : Type}

/-- A line and a column in a sequence. -/
def corner (r : Reading ν) (value : ν) : Option Position := do
  match ← r.items? value with
  | line :: column :: surplus =>
    if surplus.isEmpty || r.allowsSurplus then
      return ⟨← r.coordinate line, ← r.coordinate column⟩
    else none
  | _ => none

/-- What a query expects. -/
def expectation (r : Reading ν) (value : ν) : Option Expectation :=
  match r.fields ["path", "kind", "none", "top_left", "bottom_right"] value with
  | some [path, kind, nothing, topLeft, bottomRight] => do
    return {
      path := ← r.optional r.text? path
      kind := ← r.optional r.text? kind
      nothing := ← withDefault false r.flag? nothing
      topLeft := ← r.optional r.corner topLeft
      bottomRight := ← r.optional r.corner bottomRight }
  | _ => none

/-- The target of type `type`, from its fields by name. -/
def namedTarget (r : Reading ν) (members : List (String × ν)) (type : String) : Option Target :=
  if type = "position" then do
    let line ← required r.coordinate (← member members "line")
    let column ← required r.coordinate (← member members "column")
    return .position ⟨line, column⟩
  else if type = "bounding-box" then do
    return .boundingBox (← r.optional r.text? (← member members "path"))
  else none

/-- The target of type `type`, from its fields in order. -/
def orderedTarget (r : Reading ν) (type : String) : List ν → Option Target
  | [] => if type = "bounding-box" then some (.boundingBox none) else none
  | [path] =>
    if type = "bounding-box" then (r.optional r.text? (some path)).map .boundingBox else none
  | [line, column] =>
    if type = "position" then do
      return .position ⟨← r.coordinate line, ← r.coordinate column⟩
    else none
  | _ => none

/-- What a query asks for. -/
def target (r : Reading ν) (value : ν) : Option Target :=
  if r.isWhole 3 value then
    match r.members? value with
    | some members => do
      let type ← required r.text? (← member members "type")
      r.namedTarget members type
    | none => do
      match ← r.items? value with
      | type :: rest => r.orderedTarget (← r.text? type) rest
      | [] => none
  else none

/-- A query. -/
def query (r : Reading ν) (value : ν) : Option Query :=
  match r.fields ["id", "target", "expect"] value with
  | some [id, target, expect] => do
    return {
      id := ← required r.text? id
      target := ← required r.target target
      expect := ← r.optional r.expectation expect }
  | _ => none

/-- What a batch says about itself. -/
def metadata (r : Reading ν) (value : ν) : Option Metadata :=
  match r.fields ["name", "description"] value with
  | some [name, description] => do
    return {
      name := ← withDefault "" r.text? name
      description := ← r.optional r.text? description }
  | _ => none

/-- A batch of queries. -/
def batch (r : Reading ν) (value : ν) : Option Batch :=
  match r.fields ["meta", "queries"] value with
  | some [about, queries] => do
    return {
      about := ← withDefault {} r.metadata about
      queries := ← withDefault [] (r.sequence r.query) queries }
  | _ => none

end Reading

/-- Why a text is not a batch that can be run. -/
inductive BatchFault where
  /-- The text is not a TOML document. -/
  | malformed
  /-- The document does not fit the schema. -/
  | misfit
  /-- The batch makes no sense. -/
  | invalid (issues : List Issue)
  deriving DecidableEq, Repr

/-- The fault in words. -/
def BatchFault.reason : BatchFault → String
  | .malformed => "malformed TOML document"
  | .misfit => "data did not match the query schema"
  | .invalid issues => Issue.report issues

/-- The text under which a fault of a query file is reported. -/
def BatchFault.message (file : Option String) (fault : BatchFault) : String :=
  let name := match file with
    | some name => " " ++ name
    | none => ""
  match fault with
  | .invalid _ => "query file" ++ name ++ " is invalid:\n" ++ fault.reason
  | _ => "query file" ++ name ++ " is not valid TOML: " ++ fault.reason

/-- The batch that a TOML text spells, if nothing is wrong with it. -/
def Batch.ofToml (text : String) : Except BatchFault Batch :=
  match Toml.parse? text with
  | none => .error .malformed
  | some document =>
    match Toml.reading.batch (.table document) with
    | none => .error .misfit
    | some batch => if batch.issues.isEmpty then .ok batch else .error (.invalid batch.issues)

/-- The batch that a JSON text spells, whether or not something is wrong with it. -/
def Batch.ofJsonText? (text : String) : Option Batch := Json.readRecord Json.reading.batch text

end LosslessTree
