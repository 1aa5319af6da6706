import LosslessTree.BoundingBox

/-!
# `Query.Basic` — batches of queries

A batch is a list of queries that are run against one tree. A query asks for the node at a position or
for the box of the node at a path, and may say what it expects.
-/

namespace LosslessTree

/-- What a query asks for. -/
inductive Target where
  /-- The node at a position. -/
  | position (place : Position)
  /-- The box of the node at a path; of the whole tree, if no path is given. -/
  | boundingBox (path : Option String)
  deriving DecidableEq, Repr

/-- What a query expects. Only what is given is checked. -/
structure Expectation where
  /-- The path that the position has to resolve to. -/
  path : Option String := none
  /-- The kind of the node that the position has to resolve to. -/
  kind : Option String := none
  /-- The position has to resolve to nothing. -/
  nothing : Bool := false
  topLeft : Option Position := none
  bottomRight : Option Position := none
  deriving DecidableEq, Repr

/-- A query with the name under which its outcome is reported. -/
structure Query where
  id : String
  target : Target
  expect : Option Expectation
  deriving DecidableEq, Repr

/-- What a batch says about itself. -/
structure Metadata where
  name : String := ""
  description : Option String := none
  deriving DecidableEq, Repr

/-- Queries to run against one tree. -/
structure Batch where
  about : Metadata
  queries : List Query
  deriving DecidableEq, Repr

end LosslessTree
