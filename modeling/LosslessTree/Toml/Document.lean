import LosslessTree.Toml.Lexical
import LosslessTree.Toml.Scalar

/-!
# `Toml.Document` — values and documents

A document is a sequence of lines, each a header that opens a table or a key with a value; there a key,
the `=` behind it and the start of the value share a line. Arrays and inline tables may end with a
comma and may be nested 80 deep. Inside them line ends and comments stand wherever blanks do, so also
on both sides of an `=`, but not inside a key.

Reading stops at the first fault, and a document with a fault has no meaning at all, so the fault is
not described any further.
-/

namespace LosslessTree.Toml

/-- How deep arrays and inline tables may be nested. -/
def maxDepth : Nat := 80

/-- A key whose names before the last are not too many. -/
def readShortKey (text : List Char) : Option (List String × String × List Char) :=
  (readKey (text.length + 1) text).filter fun (path, _, _) => decide (path.length ≤ maxKeyPath)

mutual

/-- A value, inside which values may be nested `depth` deep. -/
def readItem : Nat → Nat → List Char → Option (Item × List Char)
  | 0, _, _ => none
  | fuel + 1, depth, text =>
    match text with
    | '[' :: rest =>
      match depth with
      | 0 => none
      | depth + 1 => (readItems fuel depth rest).map fun (items, rest) => (.array items, rest)
    | '{' :: rest =>
      match depth with
      | 0 => none
      | depth + 1 =>
        (readEntries fuel depth Table.opened rest).map fun (table, rest) => (.inline table, rest)
    | '"' :: _ | '\'' :: _ => do
      let (chars, rest) ← readString text
      return (.scalar (.string (String.ofList chars)), rest)
    | _ => do
      let (word, rest) := readWord text
      let value ← scalar? word
      return (.scalar value, rest)

/-- The elements of an array up to its closing bracket. -/
def readItems : Nat → Nat → List Char → Option (List Item × List Char)
  | 0, _, _ => none
  | fuel + 1, depth, text => do
    match ← skipGap false text with
    | ']' :: rest => return ([], rest)
    | text =>
      let (item, rest) ← readItem fuel depth text
      match ← skipGap false rest with
      | ',' :: rest =>
        let (items, rest) ← readItems fuel depth rest
        return (item :: items, rest)
      | ']' :: rest => return ([item], rest)
      | _ => none

/-- The entries of an inline table up to its closing brace, added to `table`. -/
def readEntries : Nat → Nat → Table → List Char → Option (Table × List Char)
  | 0, _, _, _ => none
  | fuel + 1, depth, table, text => do
    match ← skipGap false text with
    | '}' :: rest => return (table, rest)
    | text =>
      let (path, name, rest) ← readShortKey text
      match ← skipGap false rest with
      | '=' :: rest =>
        let (item, rest) ← readItem fuel depth (← skipGap false rest)
        let table ← table.put name item path
        match ← skipGap false rest with
        | ',' :: rest => readEntries fuel depth table rest
        | '}' :: rest => return (table, rest)
        | _ => none
      | _ => none

end

/-- A document as far as it has been read: its root, and the path of the open table. -/
structure Draft where
  root : Table
  current : List String

namespace Draft

/-- A document of which nothing has been read. -/
def start : Draft := ⟨Table.opened, []⟩

/-- Adds a key with its value to the open table. -/
def addEntry (d : Draft) (path : List String) (name : String) (item : Item) : Option Draft := do
  let root ← d.root.within (fun t => t.put name item path) d.current
  return { d with root }

/-- Opens the table of a header. -/
def openHeader (d : Draft) (path : List String) (name : String) (next : Bool) : Option Draft := do
  let root ← d.root.within (if next then Table.openNext name else Table.openTable name) path
  return ⟨root, path ++ [name]⟩

end Draft

/-- The names of a header and what comes behind the line. `next` tells a double bracket. -/
def readHeader (next : Bool) (text : List Char) :
    Option (List String × String × List Char) := do
  let (path, name, rest) ← readShortKey (skipBlank text)
  match next, skipBlank rest with
  | false, ']' :: rest => return (path, name, ← endLine rest)
  | true, ']' :: ']' :: rest => return (path, name, ← endLine rest)
  | _, _ => none

/-- A key with its value, and what comes behind the line. -/
def readEntry (text : List Char) : Option (List String × String × Item × List Char) := do
  let (path, name, rest) ← readShortKey text
  match skipBlank rest with
  | '=' :: rest =>
    let (item, rest) ← readItem (2 * rest.length + 2) maxDepth (skipBlank rest)
    return (path, name, item, ← endLine rest)
  | _ => none

/-- The lines of a document. Each takes at least one character, so `fuel` bounds their number. -/
def readLines : Nat → Draft → List Char → Option Table
  | 0, _, _ => none
  | fuel + 1, draft, text => do
    match ← skipGap false text with
    | [] => return draft.root
    | '[' :: '[' :: rest =>
      let (path, name, rest) ← readHeader true rest
      readLines fuel (← draft.openHeader path name true) rest
    | '[' :: rest =>
      let (path, name, rest) ← readHeader false rest
      readLines fuel (← draft.openHeader path name false) rest
    | text =>
      let (path, name, item, rest) ← readEntry text
      readLines fuel (← draft.addEntry path name item) rest

/-- The document that a text spells; a byte order mark in front is passed over. -/
def parse? (text : String) : Option Table :=
  let chars := match text.toList with
    | '\uFEFF' :: rest => rest
    | chars => chars
  readLines (chars.length + 1) Draft.start chars

end LosslessTree.Toml
