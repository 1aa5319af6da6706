import LosslessTree.Json.Reading
import LosslessTree.Path.Parser
import LosslessTree.Query.Basic
import LosslessTree.Resolve.Cursor
import LosslessTree.Resolve.Extent

/-!
# `Query.Outcome` — running queries

Every query is resolved on its own. A position resolves to a node or to nothing, a path to a box. A
query whose path cannot be followed fails; a query that resolves to something other than what it
expects is a mismatch; every other query is resolved.

## Contents
- **`Resolution`, `Failure`, `Wanted`, `Outcome`**, with their texts and JSON values.
- **`resolve`**, what a target resolves to.
- **`Resolution.unmet?`**, the part of an expectation that a resolution does not meet.
- **`Query.run`, `Batch.run`**.
-/

namespace LosslessTree

/-- What a query resolved to. -/
inductive Resolution where
  | node (path : Path) (kind : String)
  | nothing
  | box (b : BoundingBox)
  deriving DecidableEq, Repr

/-- Why a query could not be resolved. -/
inductive Failure where
  | badPath (error : PathError)
  | missingKey (error : MissingKey)
  | noBox (path : Path)
  deriving DecidableEq, Repr

/-- What was expected in place of what came. -/
inductive Wanted where
  | nothing
  | node (path kind : Option String)
  | corners (topLeft bottomRight : Option Position)
  deriving DecidableEq, Repr

/-- What came of a query. -/
inductive Outcome where
  | resolved (id : String) (resolution : Resolution)
  | mismatch (id : String) (resolution : Resolution) (wanted : Wanted)
  | failed (id : String) (failure : Failure)
  deriving DecidableEq, Repr

/-! ## Texts -/

/-- A resolution in words. -/
def Resolution.text : Resolution → String
  | .node path kind => path.shown ++ " (" ++ kind ++ ")"
  | .nothing => "no node"
  | .box b => b.text

/-- A failure in words. -/
def Failure.text : Failure → String
  | .badPath e => e.message
  | .missingKey e => e.message
  | .noBox path => (BoxError.noSuchPath path).message

/-- What was expected, in words. A corner that was not given is a star. -/
def Wanted.text : Wanted → String
  | .nothing => "no node"
  | .node (some path) (some kind) => path ++ " (" ++ kind ++ ")"
  | .node (some path) none => path
  | .node none (some kind) => "a " ++ kind ++ " node"
  | .node none none => "a node"
  | .corners topLeft bottomRight =>
    let corner := fun p : Option Position => (p.map Position.text).getD "*"
    corner topLeft ++ ".." ++ corner bottomRight

namespace Outcome

/-- The query that an outcome belongs to. -/
def id : Outcome → String
  | .resolved id _ => id
  | .mismatch id _ _ => id
  | .failed id _ => id

/-- Whether the query was resolved as expected. -/
def isSuccess : Outcome → Bool
  | .resolved _ _ => true
  | _ => false

/-- An outcome in words. -/
def text : Outcome → String
  | .resolved id resolution => id ++ ": " ++ resolution.text
  | .mismatch id resolution wanted =>
    id ++ ": got " ++ resolution.text ++ ", expected " ++ wanted.text
  | .failed id failure => id ++ ": failed - " ++ failure.text

end Outcome

/-! ## JSON -/

/-- A resolution as a JSON value. -/
def Resolution.toJson : Resolution → Json
  | .node path kind =>
    .object [("kind", .string "node"), ("path", path.toJson), ("node_kind", .string kind)]
  | .nothing => .object [("kind", .string "nothing")]
  | .box b => .object [("kind", .string "bounding-box"), ("bbox", b.toJson)]

/-- An outcome as a JSON value. -/
def Outcome.toJson : Outcome → Json
  | .resolved id resolution =>
    .object [("status", .string "resolved"), ("id", .string id),
      ("resolution", resolution.toJson)]
  | .mismatch id resolution wanted =>
    .object [("status", .string "mismatch"), ("id", .string id),
      ("resolution", resolution.toJson), ("expected", .string wanted.text)]
  | .failed id failure =>
    .object [("status", .string "failed"), ("id", .string id), ("reason", .string failure.text)]

/-! ## Running -/

/-- What the node at a position is. -/
def resolvePosition (tree : Node) (p : Position) :
    Except Overflow (Except Failure Resolution) := do
  match ← tree.pathAt p with
  | none => return .ok .nothing
  | some path =>
    match tree.descend path with
    | .ok node => return .ok (.node path node.kindName)
    | .error e => return .error (.missingKey e)

/-- What the box of the node at a path is. A path that the tree does not have is reported by the key
    that is missing. -/
def resolveBox (tree : Node) (path : Path) : Except Overflow (Except Failure Resolution) := do
  match ← tree.boxAt? path with
  | some box => return .ok (.box box)
  | none =>
    match tree.descend path with
    | .ok _ => return .error (.noBox path)
    | .error e => return .error (.missingKey e)

/-- What a target resolves to. -/
def resolve (tree : Node) : Target → Except Overflow (Except Failure Resolution)
  | .position p => resolvePosition tree p
  | .boundingBox none => resolveBox tree Path.root
  | .boundingBox (some text) =>
    match Path.parse text with
    | .ok path => resolveBox tree path
    | .error e => .ok (.error (.badPath e))

/-- Whether a given corner is the one that came. -/
def cornerMeets (wanted : Option Position) (came : Position) : Bool :=
  wanted.all fun p => decide (came = p)

/-- What an expectation asks for and a resolution does not give. -/
def Resolution.unmet? (e : Expectation) : Resolution → Option Wanted
  | .nothing => if e.path.isSome || e.kind.isSome then some (.node e.path e.kind) else none
  | .node path kind =>
    let pathMeets := e.path.all fun text => decide ((Path.parse text).toOption = some path)
    let kindMeets := e.kind.all fun wanted => decide (wanted = kind)
    if e.nothing then some .nothing
    else if pathMeets && kindMeets then none
    else some (.node e.path e.kind)
  | .box b =>
    if cornerMeets e.topLeft b.topLeft && cornerMeets e.bottomRight b.bottomRight then none
    else some (.corners e.topLeft e.bottomRight)

/-- Runs a query. -/
def Query.run (tree : Node) (q : Query) : Except Overflow Outcome := do
  match ← resolve tree q.target with
  | .error failure => return .failed q.id failure
  | .ok resolution =>
    match resolution.unmet? (q.expect.getD {}) with
    | none => return .resolved q.id resolution
    | some wanted => return .mismatch q.id resolution wanted

/-- Runs the queries of a batch in their order. -/
def Batch.run (tree : Node) (b : Batch) : Except Overflow (List Outcome) :=
  b.queries.mapM (Query.run tree)

end LosslessTree
