import LosslessTree.Record
import LosslessTree.Toml.Document

/-!
# `Toml.Reading` — records in TOML

In TOML there is nothing that stands for an absent value. Records given as sequences may be longer
than needed, the tables of a `[[header]]` are a sequence, and a date or time is a table none of whose
names is known.
-/

namespace LosslessTree.Toml

/-- How records are read from TOML documents. -/
def reading : Reading Item where
  text?
    | .scalar (.string s) => some s
    | _ => none
  integer?
    | .scalar (.integer n) => some n
    | _ => none
  flag?
    | .scalar (.boolean b) => some b
    | _ => none
  isNothing _ := false
  items?
    | .array items => some items
    | .tables tables => some (tables.map .table)
    | _ => none
  members?
    | .inline table => some table.entries
    | .table table => some table.entries
    | .scalar (.dateTime _) => some []
    | _ => none
  isWhole _ _ := true
  allowsSurplus := true

end LosslessTree.Toml
