/-!
# `Record` — records in structured data

Structured data comes in more than one format. What a record needs of a format is small, and
`Reading` lists it: whether a value is a text, an integer, a flag, nothing at all, a sequence, or a
table of named members, and how strict the format is.

A record is given either as a table, by the names of its fields, or as a sequence of its fields in
their order. A table may hold names that the record does not know, but not the same known name
twice. A sequence may stop early; whether the missing fields are allowed to be missing is for the
record to say. Whether it may go on beyond the last field depends on the format.
-/

namespace LosslessTree

variable {ν α : Type}

/-- How values of a format `ν` are read. -/
structure Reading (ν : Type) where
  /-- The text that a value is. -/
  text? : ν → Option String
  /-- The integer that a value is. -/
  integer? : ν → Option Int
  /-- The flag that a value is. -/
  flag? : ν → Option Bool
  /-- Whether the value stands for the absence of one. -/
  isNothing : ν → Bool
  /-- The elements of a sequence. -/
  items? : ν → Option (List ν)
  /-- The members of a table. -/
  members? : ν → Option (List (String × ν))
  /-- Whether a value inside so many others can be taken as a whole, unknown members included. -/
  isWhole : Nat → ν → Bool
  /-- Whether elements beyond the last field of a record are passed over. -/
  allowsSurplus : Bool

namespace Reading

/-- The value of a member whose name comes at most once; fails if the name comes twice. -/
def member (members : List (String × ν)) (name : String) : Option (Option ν) :=
  match members.filter (·.1 == name) with
  | [] => some none
  | [(_, value)] => some (some value)
  | _ => none

/-- The fields of a record in a sequence: as many as there are names. -/
def positional : List String → List ν → List (Option ν)
  | [], _ => []
  | _ :: names, [] => none :: positional names []
  | _ :: names, value :: rest => some value :: positional names rest

/-- The fields of a record, in the order of `names`. -/
def fields (r : Reading ν) (names : List String) (value : ν) : Option (List (Option ν)) :=
  match r.members? value with
  | some members => names.mapM (member members)
  | none =>
    match r.items? value with
    | some items =>
      if names.length < items.length && !r.allowsSurplus then none
      else some (positional names items)
    | none => none

/-- A field that has to be there. -/
def required (read : ν → Option α) (field : Option ν) : Option α := field.bind read

/-- A field with a value to take when it is missing. -/
def withDefault (default : α) (read : ν → Option α) : Option ν → Option α
  | none => some default
  | some value => read value

/-- A field that may be missing or nothing. -/
def optional (r : Reading ν) (read : ν → Option α) : Option ν → Option (Option α)
  | none => some none
  | some value => if r.isNothing value then some none else (read value).map some

/-- A sequence whose elements are all read alike. -/
def sequence (r : Reading ν) (read : ν → Option α) (value : ν) : Option (List α) :=
  (r.items? value).bind (·.mapM read)

end Reading

end LosslessTree
