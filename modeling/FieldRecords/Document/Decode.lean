import FieldRecords.Document.Basic

/-!
# Documents as values

How documents are read as values of other types: numbers, truth values, texts and lists; records
with named fields; choices between named variants. A table may have entries that nobody asks for;
a record may also be written as the list of its fields.

The two dialects differ in two points only (`Dialect`). In JSON a list of fields has exactly as
many items as there are fields, while in TOML further items of any kind are passed over. And a
variant without content may carry `null` in JSON, and an empty table or list in TOML.
-/

namespace FieldRecords

/-- The language a document was written in. -/
inductive Dialect where
  | json
  | toml
deriving DecidableEq

namespace Document

/-! ## 1. Plain values -/

/-- A whole number that is not negative. -/
def toUInt64? : Document → Option UInt64
  | integer n => if 0 ≤ n ∧ n < 18446744073709551616 then some n.toNat.toUInt64 else none
  | _ => none

/-- A number; whole numbers are rounded to the nearest float. -/
def toFloat? : Document → Option Float
  | float x => some x
  | integer n =>
    some (if n < 0 then -(-n).toNat.toUInt64.toFloat else n.toNat.toUInt64.toFloat)
  | _ => none

def toBool? : Document → Option Bool
  | bool b => some b
  | _ => none

def toText? : Document → Option String
  | text s => some s
  | _ => none

def toList? : Document → Option (List Document)
  | list items => some items
  | _ => none

/-! ## 2. Records and choices -/

/-- **The fields of a record**, in the order of their names: all entries of these names, or the
    items of a list that has one for each. -/
def fields? (dialect : Dialect) (names : List String) : Document → Option (List Document)
  | table entries => names.mapM (find? entries)
  | list items =>
    if items.length = names.length ∨ dialect = .toml ∧ names.length < items.length then
      some (items.take names.length)
    else none
  | _ => none

/-- **The name of a variant and its content**: a text is a variant without content, a table with
    one entry a variant with content. -/
def variant? : Document → Option (String × Option Document)
  | text name => some (name, none)
  | table [(name, content)] => some (name, some content)
  | _ => none

/-- The content that a variant without content may have. -/
def isNoContent (dialect : Dialect) : Option Document → Bool
  | none => true
  | some null => dialect = .json
  | some (table []) => dialect = .toml
  | some (list []) => dialect = .toml
  | some _ => false

end Document

end FieldRecords
