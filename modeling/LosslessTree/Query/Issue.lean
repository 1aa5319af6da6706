import LosslessTree.Path.Parser
import LosslessTree.Query.Basic

/-!
# `Query.Issue` — what is wrong with a batch

A batch may be well formed as data and still make no sense: it has no queries, names are blank or
used twice, a path cannot be parsed, a position lies before the first line or column, or an
expectation does not fit its query. All issues are collected, query by query; within a query they
come in the order name, target, expected path, fit of the expectation.
-/

namespace LosslessTree

/-- Why the parts of a query do not go together. -/
inductive Clash where
  | outOfRange (place : Position)
  | cornersOfPosition
  | nothingWithNode
  | nodeOfBox
  deriving DecidableEq, Repr

/-- The clash in words. -/
def Clash.reason : Clash → String
  | .outOfRange p => "position " ++ p.text ++ " is out of range, lines and columns start at 1"
  | .cornersOfPosition => "top_left/bottom_right only apply to bounding-box queries"
  | .nothingWithNode => "expect.none cannot be combined with path or kind"
  | .nodeOfBox => "path/kind/none only apply to position queries"

/-- Something wrong with a batch. -/
inductive Issue where
  | noQueries
  | blankId
  | duplicateId (id : String)
  | invalidPath (id : String) (error : PathError)
  | clash (id : String) (why : Clash)
  deriving DecidableEq, Repr

namespace Issue

/-- The issue in words. -/
def message : Issue → String
  | .noQueries => "query config contains no queries"
  | .blankId => "query missing required field 'id'"
  | .duplicateId id => "query id '" ++ id ++ "' is used more than once"
  | .invalidPath id error => "query '" ++ id ++ "' has an invalid path: " ++ error.message
  | .clash id why => "query '" ++ id ++ "' has invalid configuration: " ++ why.reason

/-- The query that an issue is about. -/
def queryId? : Issue → Option String
  | .noQueries => none
  | .blankId => none
  | .duplicateId id => some id
  | .invalidPath id _ => some id
  | .clash id _ => some id

/-- Issues in words, one to a line. -/
def report (issues : List Issue) : String := "\n".intercalate (issues.map message)

/-- The issue of a path that cannot be parsed. -/
def ofPath (id : String) : Option String → List Issue
  | none => []
  | some path =>
    match Path.parse path with
    | .ok _ => []
    | .error e => [.invalidPath id e]

end Issue

/-- Why an expectation does not fit a target. -/
def Expectation.clash? (e : Expectation) : Target → Option Clash
  | .position _ =>
    if e.topLeft.isSome || e.bottomRight.isSome then some .cornersOfPosition
    else if e.nothing && (e.path.isSome || e.kind.isSome) then some .nothingWithNode
    else none
  | .boundingBox _ =>
    if e.path.isSome || e.kind.isSome || e.nothing then some .nodeOfBox else none

namespace Query

/-- The issue of a query's name, after queries named `seen`. -/
def idIssues (q : Query) (seen : List String) : List Issue :=
  if Text.isBlankText q.id then [.blankId]
  else if q.id ∈ seen then [.duplicateId q.id]
  else []

/-- The issue of a query's target. -/
def targetIssues (q : Query) : List Issue :=
  match q.target with
  | .position p => if p.line < 1 ∨ p.column < 1 then [.clash q.id (.outOfRange p)] else []
  | .boundingBox path => Issue.ofPath q.id path

/-- The issues of what a query expects. -/
def expectIssues (q : Query) : List Issue :=
  match q.expect with
  | none => []
  | some e =>
    Issue.ofPath q.id e.path ++ ((e.clash? q.target).map (Issue.clash q.id)).toList

/-- The issues of a query, after queries named `seen`. -/
def issues (q : Query) (seen : List String) : List Issue :=
  q.idIssues seen ++ q.targetIssues ++ q.expectIssues

/-- The names seen after a query; blank names do not count. -/
def remember (q : Query) (seen : List String) : List String :=
  if Text.isBlankText q.id then seen else q.id :: seen

end Query

/-- The issues of queries in their order, after queries named `seen`. -/
def issuesAfter (seen : List String) : List Query → List Issue
  | [] => []
  | q :: rest => q.issues seen ++ issuesAfter (q.remember seen) rest

/-- Everything that is wrong with a batch. -/
def Batch.issues (b : Batch) : List Issue :=
  if b.queries.isEmpty then [.noQueries] else issuesAfter [] b.queries

end LosslessTree
