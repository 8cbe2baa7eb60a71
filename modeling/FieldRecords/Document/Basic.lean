/-!
# Documents

A document is a tree of plain data, as settings files and requests write it: numbers, truth values
and texts, lists, and tables of named entries in the order in which they were written. Points in
time are kept only as what they are, since nothing here uses them.
-/

namespace FieldRecords

/-- A tree of plain data. -/
inductive Document where
  | null
  | bool (value : Bool)
  | integer (value : Int)
  | float (value : Float)
  | text (value : String)
  | time
  | list (items : List Document)
  | table (entries : List (String × Document))

namespace Document

/-- The first entry of that name. -/
def find? (entries : List (String × Document)) (name : String) : Option Document :=
  (entries.find? fun entry => entry.1 == name).map Prod.snd

/-- A whole number below 2^64. -/
def natural (n : UInt64) : Document := .integer n.toNat

end Document

end FieldRecords
