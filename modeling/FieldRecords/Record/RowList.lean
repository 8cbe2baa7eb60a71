import FieldRecords.Record.Field

/-!
# Lists of fields that are used again

Reading record after record into one list of fields writes over the fields that are already
there, adds new ones behind them and cuts off what is left of the longer record before. The list
also knows for how many fields it has room, so that room is asked for once per record and not
once per field.
-/

namespace FieldRecords

/-- Fields, and for how many of them there is room at least. -/
structure RowList where
  rows : Array Field
  capacity : Nat

namespace RowList

/-- No fields, and no room for any. -/
def empty : RowList := ⟨#[], 0⟩

/-- A list of exactly these fields. -/
def ofList (fields : List Field) : RowList := ⟨fields.toArray, fields.length⟩

def toList (r : RowList) : List Field := r.rows.toList

/-- How many further fields room must be asked for before `count` fields are read: none if there
    is room already. -/
def shortfall (r : RowList) (count : Nat) : Option Nat :=
  if r.capacity < count then some (count - r.rows.size) else none

/-- Makes room for `count` fields. -/
def reserve (r : RowList) (count : Nat) : RowList :=
  match r.shortfall count with
  | some additional => { r with capacity := r.rows.size + additional }
  | none => r

/-- Writes the field at a position: over the field that is there, or behind the last one. -/
def put (r : RowList) (i : Nat) (f : Field) : RowList :=
  if i < r.rows.size then
    { r with rows := r.rows.setIfInBounds i f }
  else
    ⟨r.rows.push f, max r.capacity (r.rows.size + 1)⟩

/-- Keeps the first `count` fields. -/
def truncate (r : RowList) (count : Nat) : RowList :=
  { r with rows := r.rows.take count }

/-- Keeps nothing but the room. -/
def clear (r : RowList) : RowList := { r with rows := #[] }

@[simp] theorem toList_ofList (fields : List Field) : (ofList fields).toList = fields := by
  simp [ofList, toList]

@[simp] theorem toList_reserve (r : RowList) (count : Nat) :
    (r.reserve count).toList = r.toList := by
  unfold reserve
  split <;> rfl

@[simp] theorem toList_truncate (r : RowList) (count : Nat) :
    (r.truncate count).toList = r.toList.take count := by
  simp [truncate, toList]

@[simp] theorem toList_clear (r : RowList) : r.clear.toList = [] := rfl

/-- Behind the last field a field is added. -/
theorem toList_put_length (r : RowList) (f : Field) :
    (r.put r.toList.length f).toList = r.toList ++ [f] := by
  simp [put, toList]

/-- Before it a field is written over. -/
theorem toList_put {r : RowList} {i : Nat} (h : i < r.toList.length) (f : Field) :
    (r.put i f).toList = r.toList.set i f := by
  simp only [toList, Array.length_toList] at h
  simp [put, toList, h]

end RowList

end FieldRecords
