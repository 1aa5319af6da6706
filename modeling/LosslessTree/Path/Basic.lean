/-!
# `Path.Basic` — keys and paths

A key selects a child: an element of a list by its index, or a field of a composite by its name.
A path is the list of keys that leads from the root of a tree to one of its nodes; the empty path
is the root.
-/

namespace LosslessTree

/-- Selects a child of a node. -/
inductive Key where
  /-- The element of a list at `i`, counted from 0. -/
  | index (i : Nat)
  /-- The field of a composite called `name`. -/
  | name (name : String)
  deriving DecidableEq, Repr

/-- The keys from the root of a tree to a node. -/
abbrev Path := List Key

namespace Key

/-- The number of different indices that a written key can have, `2^64`. -/
def indexBound : Nat := 18446744073709551616

/-- The bare text of a key, without quotes. -/
def text : Key → String
  | .index i => toString i
  | .name s => s

end Key

namespace Path

/-- The path of the root. -/
def root : Path := []

/-- Whether a path is that of the root. -/
def isRoot (p : Path) : Bool := p.isEmpty

/-- The path to the child under `key` of the node at `p`. -/
def push (p : Path) (key : Key) : Path := p ++ [key]

end Path

end LosslessTree
