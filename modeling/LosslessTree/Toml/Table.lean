/-!
# `Toml.Table` — tables and how they may grow

A document is a table of named items. An item is a scalar, an array, an inline table, a table, or a
sequence of tables; the last two are opened by headers and may grow as the document goes on, while
an inline table is complete once it is written.

Two marks on a table decide who may still add to it. A table is *implied* when it was only passed
through on the way to another one, and *dotted* when a dotted key passed through it.

* A header `[a.b]` opens a new table, or an implied one that is not dotted. All else would open a
  table twice.
* A header `[[a.b]]` adds a table to a sequence, or starts one.
* A dotted key `a.b = x` passes through implied tables only, and the last one has to be dotted.
* On its way a header passes through any table, and into the last table of a sequence.
-/

namespace LosslessTree.Toml

/-- A value without parts. -/
inductive Scalar where
  | string (s : String)
  | integer (n : Int)
  | float (text : String)
  | boolean (b : Bool)
  | dateTime (text : String)
  deriving DecidableEq, Repr

mutual

/-- What stands under a name. -/
inductive Item where
  | scalar (value : Scalar)
  | array (items : List Item)
  /-- A table written in braces. -/
  | inline (table : Table)
  | table (table : Table)
  /-- The tables of one `[[header]]`, in order. -/
  | tables (tables : List Table)

/-- Named items, with the marks that decide how the table may grow. -/
inductive Table where
  | mk (implied dotted : Bool) (entries : List (String × Item))

end

namespace Table

/-- The items of a table by name. -/
def entries : Table → List (String × Item)
  | mk _ _ entries => entries

/-- Whether the table was only passed through. -/
def implied : Table → Bool
  | mk implied _ _ => implied

/-- Whether a dotted key passed through the table. -/
def dotted : Table → Bool
  | mk _ dotted _ => dotted

/-- A table opened by a header, or the whole document. -/
def opened : Table := mk false false []

/-- A table that a header passes through. -/
def passed : Table := mk true false []

/-- A table that a dotted key passes through. -/
def passedByKey : Table := mk true true []

instance : Inhabited Table := ⟨opened⟩

/-- The item under a name. -/
def find? (t : Table) (name : String) : Option Item := t.entries.lookup name

/-- The table with `item` under `name`, in place of what stood there. -/
def set (t : Table) (name : String) (item : Item) : Table :=
  match t with
  | mk implied dotted entries =>
    if entries.any (·.1 == name) then
      mk implied dotted (entries.map fun e => if e.1 == name then (name, item) else e)
    else mk implied dotted (entries ++ [(name, item)])

/-- The table with a new item; fails if the name is taken. -/
def add (t : Table) (name : String) (item : Item) : Option Table :=
  match t.find? name with
  | some _ => none
  | none => some (t.set name item)

/-- Adds an item under a key whose names before the last are `path`. -/
def put (t : Table) (name : String) (item : Item) : List String → Option Table
  | [] => t.add name item
  | next :: path => do
    let (child, wrap) ← match t.find? next with
      | none => some (passedByKey, Item.table)
      | some (.table child) => if child.implied then some (child, Item.table) else none
      | some (.tables all) => all.getLast?.map fun last =>
        (last, fun child => Item.tables (all.dropLast ++ [child]))
      | some _ => none
    if path.isEmpty && !child.dotted then none
    else
      let child ← child.put name item path
      return t.set next (wrap child)

/-- Changes the table that a header reaches by `path`, passing through new tables where there are
    none yet. -/
def within (change : Table → Option Table) (t : Table) : List String → Option Table
  | [] => change t
  | next :: path => do
    let (child, wrap) ← match t.find? next with
      | none => some (passed, Item.table)
      | some (.table child) => some (child, Item.table)
      | some (.tables all) => all.getLast?.map fun last =>
        (last, fun child => Item.tables (all.dropLast ++ [child]))
      | some _ => none
    let child ← child.within change path
    return t.set next (wrap child)

/-- Opens the table `name`, or an implied one of that name. -/
def openTable (name : String) (t : Table) : Option Table :=
  match t.find? name with
  | none => some (t.set name (.table opened))
  | some (.table (mk true false entries)) => some (t.set name (.table (mk false false entries)))
  | some _ => none

/-- Adds a table to the sequence `name`, or starts it. -/
def openNext (name : String) (t : Table) : Option Table :=
  match t.find? name with
  | none => some (t.set name (.tables [opened]))
  | some (.tables all) => some (t.set name (.tables (all ++ [opened])))
  | some _ => none

end Table

end LosslessTree.Toml
