import FieldRecords.Record.Walk
import FieldRecords.Record.RowList

/-!
# Reading a record

A view is a byte string that is read as a record. Taking a view checks only that the count is
there (`View.ofBytes`); the entries are read when somebody asks for them, so a record whose end
is broken still answers for the fields before the break (`View.get?`), while everything that
needs the whole record refuses it (`View.validate`, `View.toFields`, `View.readInto`).
-/

namespace FieldRecords

/-- A byte string read as a record. -/
structure View where
  bytes : Bytes
deriving DecidableEq

namespace View

/-! ## 1. Taking a view -/

/-- A view of `bytes`, refused if not even the count is there. -/
def ofBytes (bytes : Bytes) : Checked View :=
  if bytes.length < 4 then
    Checked.malformed bytes.length .missingHeader
  else
    pure ⟨bytes⟩

/-- The number of fields, as the count declares it. -/
def length (v : View) : Nat :=
  match Bytes.readU32? v.bytes with
  | some (count, _) => count
  | none => 0

/-- The count declares no field. -/
def isEmpty (v : View) : Bool := v.length == 0

/-- The walk over all entries. -/
def walk (v : View) : Walk := ⟨v.bytes.drop 4, 4, v.length, false⟩

/-! ## 2. Looking up a name -/

/-- The first entry with this name. -/
def locate? (v : View) (name : Bytes) : Checked (Option Entry) :=
  v.walk.find? fun e => e.name == name

/-- **The value of the first field with this name**; `none` if the record is whole and has no
    such field. -/
def get? (v : View) (name : Bytes) : Checked (Option Bytes) := do
  return (← v.locate? name).map Entry.value

/-- There is a field with this name. -/
def contains (v : View) (name : Bytes) : Checked Bool := do
  return (← v.get? name).isSome

/-! ## 3. Reading the whole record -/

/-- **Every entry can be read and the entries fill the byte string.** -/
def validate (v : View) : Checked Unit :=
  v.walk.foldM (fun _ _ => pure ()) ()

/-- For how many fields room is made before reading: as many as the count declares, but no more
    than the bytes can hold, since a field takes at least eight. -/
def expectedFields (v : View) : Nat :=
  min v.length ((v.bytes.length - 4) / 8)

/-- Reads the fields into a list that may hold fields of an earlier record. The list ends up with
    exactly the fields of this record, or with none if the record is refused. -/
def readInto (v : View) (out : RowList) : Metered (RowList × Except CodecError Unit) := do
  let out := out.reserve v.expectedFields
  match ← (v.walk.foldM (fun (out, i) e => pure (out.put i e.field, i + 1)) (out, 0)).run with
  | .ok (out, count) => return (out.truncate count, .ok ())
  | .error error => return (out.clear, .error error)

/-- **The fields of the record**, in order. -/
def toFields (v : View) : Checked (List Field) := do
  let (out, outcome) ← v.readInto RowList.empty
  match outcome with
  | .ok () => return out.toList
  | .error error => throw error

end View

end FieldRecords
