import FieldRecords.Record.Growth
import FieldRecords.Record.View

/-!
# Records that are written

A buffer owns the bytes of one record and changes them in place: fields are appended, all fields
are dropped, the whole record is replaced by another, a single value is replaced where it stands.
Between operations the bytes are a complete record. An operation that is refused leaves the bytes
as they were; `extendFields` alone keeps the fields before the refused one.

A buffer also has a limit on the length of a name or a value, fixed when the buffer is made, and
it knows for how many bytes it has room. Room that was made is never given back. What needs more
room asks for memory before it writes, and is refused if there is none: how that goes is told to
the operation (`Growth`), and if nothing is told, there is memory.
-/

namespace FieldRecords

/-- The bytes of a record that can be changed. -/
structure Buffer where
  bytes : Bytes
  /-- The longest name or value that is accepted. -/
  limit : Nat
  /-- For this many bytes there is room, if not for more. -/
  capacity : Nat

/-- What an edit leaves: the buffer, and why the edit was refused if it was. -/
structure Edited where
  buffer : Buffer
  outcome : Except CodecError Unit

namespace Buffer

/-! ## 1. Making a buffer -/

/-- The empty record with room for `capacity` bytes, or for the count if that is more. -/
def ofCapacity (capacity : Nat) : Buffer :=
  ⟨Record.emptyBytes, Record.maxLength, max capacity Record.headerSize⟩

/-- The empty record with the usual room. -/
def new : Buffer := ofCapacity Config.standard.initialCapacity

/-- The empty record with room for `capacity` bytes, if there can be so much. -/
def withCapacity (capacity : Nat) : Except Fault Buffer := do
  Room.ask capacity 1
  return ofCapacity capacity

/-- The empty record under given settings. A limit beyond what can be written is no limit. -/
def withConfig (config : Config) : Except Fault Buffer := do
  let b ← withCapacity config.initialCapacity
  return { b with limit := min config.maxFieldLength Record.maxLength }

/-- A copy has the contents and the limit, and room for no more than the contents. -/
def clone (b : Buffer) : Buffer := { b with capacity := b.bytes.length }

/-- So many copies, if there can be so many. -/
def copies (b : Buffer) (count : Nat) : Except Fault (List Buffer) := do
  Room.ask count Room.perBuffer
  return List.replicate count b.clone

/-! ## 2. Reading it -/

def view (b : Buffer) : View := ⟨b.bytes⟩

/-- The number of fields. -/
def length (b : Buffer) : Nat := b.view.length

def isEmpty (b : Buffer) : Bool := b.view.isEmpty

/-- Two buffers are the same record if their bytes are the same; limit and room do not count. -/
instance : BEq Buffer := ⟨fun a b => a.bytes == b.bytes⟩

/-! ## 3. Changing it -/

/-- For this many bytes there is room: for those that are there in any case. -/
def room (b : Buffer) : Nat := max b.capacity b.bytes.length

/-- Room for `capacity` bytes at least. -/
def grow (b : Buffer) (capacity : Nat) : Buffer := { b with capacity := max b.room capacity }

/-- The bytes exchanged for others, with room for them. -/
def withBytes (b : Buffer) (bytes : Bytes) : Buffer :=
  { b with bytes, capacity := max b.room bytes.length }

theorem length_le_room (b : Buffer) : b.bytes.length ≤ b.room := Nat.le_max_right _ _

theorem room_grow (b : Buffer) (capacity : Nat) : (b.grow capacity).room = max b.room capacity := by
  have hlength := b.length_le_room
  show max (max b.room capacity) b.bytes.length = _
  omega

theorem room_withBytes (b : Buffer) (bytes : Bytes) :
    (b.withBytes bytes).room = max b.room bytes.length := by
  show max (max b.room bytes.length) bytes.length = _
  omega

/-- Bytes written behind those that are there. -/
def push (b : Buffer) (bytes : Bytes) : Buffer := b.withBytes (b.bytes ++ bytes)

/-- The count exchanged for another. -/
def withCount (b : Buffer) (count : Nat) : Buffer :=
  b.withBytes (b.bytes.overwrite 0 (Bytes.u32 count))

/-- **Asks for room for `additional` further bytes**, for memory if there is not so much. -/
def reserve (b : Buffer) (additional : Nat) (growth : Growth := .granted) : Checked Buffer :=
  match (growth.within b.room).ask (b.bytes.length + additional) with
  | .ok () => pure (b.grow (b.bytes.length + additional))
  | .error cause => throw (.allocation cause)

/-- Fields that are to stand behind those of a record, the last one first, and what the record
    comes to with them: how many fields it has, and how many bytes it takes. -/
structure Batch where
  fields : List Field
  count : Nat
  size : Nat

/-- No fields yet. -/
def batch (b : Buffer) : Batch := ⟨[], b.length, b.bytes.length⟩

/-- One field more. -/
def Batch.add (batch : Batch) (f : Field) : Batch :=
  ⟨f :: batch.fields, batch.count + 1, batch.size + f.encode.length⟩

/-- Looks at a field, makes room for it behind the others, and counts it as appended. Refused if
    the name or the value is too long, the name looked at first, if the count is exhausted, or if
    there is no memory. -/
def accept (b : Buffer) (batch : Batch) (f : Field) (growth : Growth := .granted) :
    Checked Batch :=
  if b.limit < f.name.length then
    throw (.fieldTooLarge f.name.length b.limit)
  else if b.limit < f.value.length then
    throw (.fieldTooLarge f.value.length b.limit)
  else if Record.maxLength ≤ batch.count then
    throw .tooManyFields
  else
    -- nothing of the batch is written yet, so all of it is asked for once more
    match (growth.within b.room).ask (batch.size + f.encode.length) with
    | .ok () => do
      Metered.count .recordAppend
      return batch.add f
    | .error cause => throw (.allocation cause)

/-- Fields written behind those that are there, all at once. What is there is copied only once. -/
def write (b : Buffer) (batch : Batch) : Buffer :=
  (b.push (batch.fields.reverse.flatMap Field.encode)).withCount batch.count

/-- **Appends one field**, if it is accepted. -/
def append (b : Buffer) (f : Field) (growth : Growth := .granted) : Checked Buffer := do
  let batch ← b.accept b.batch f growth
  return b.write batch

/-- Appends fields up to the first one that is refused. -/
def extendFields (b : Buffer) (fields : List Field) (growth : Growth := .granted) :
    Metered Edited := do
  let (batch, outcome) ←
    Checked.foldUntilRefused (fun batch f => b.accept batch f growth) fields b.batch
  return ⟨b.write batch, outcome⟩

/-- Back to no fields; the room stays. -/
def clear (b : Buffer) : Metered Buffer := do
  Metered.count .recordClear
  return (b.withBytes (b.bytes.take Record.headerSize)).withCount 0

/-- Takes over the bytes of a record that is known to be complete. Room is made before the old
    bytes go. -/
def copy (b : Buffer) (bytes : Bytes) (growth : Growth := .granted) : Checked Buffer := do
  let b ← b.reserve (bytes.length - b.bytes.length) growth
  Metered.count .recordAssign
  return b.withBytes bytes

/-- With memory for everything bytes are copied, and that is counted. -/
theorem copy_granted (b : Buffer) (bytes : Bytes) :
    b.copy bytes = do
      Metered.count .recordAssign
      return b.withBytes bytes := by
  have hroom := b.length_le_room
  have hgrown : (b.grow (b.bytes.length + (bytes.length - b.bytes.length))).withBytes bytes =
      b.withBytes bytes := by
    rw [withBytes, withBytes, room_grow]
    congr 1
    omega
  unfold copy reserve
  rw [Growth.within_granted, ← hgrown]
  rfl

/-- **Takes over another record**, after looking at all of it. -/
def assign (b : Buffer) (v : View) (growth : Growth := .granted) : Checked Buffer := do
  v.validate
  b.copy v.bytes growth

/-- **Replaces the value of an entry** of this record. A value of the same length is written over
    the old one; otherwise what follows moves, for which a longer value needs room, and the length
    of the value is written anew. -/
def replaceValue (b : Buffer) (e : Entry) (value : Bytes) (growth : Growth := .granted) :
    Checked Buffer :=
  if b.limit < value.length then
    throw (.fieldTooLarge value.length b.limit)
  else if e.value.length = value.length then
    pure { b with bytes := b.bytes.overwrite e.valueStart value }
  else do
    let b ← if e.value.length < value.length then
        b.reserve (value.length - e.value.length) growth
      else
        pure b
    return b.withBytes ((b.bytes.splice e.valueStart e.valueEnd value).overwrite e.nameEnd
      (Bytes.u32 value.length))

/-! ## 4. Whole records -/

/-- A buffer with these fields. -/
def fromFields (fields : List Field) (growth : Growth := .granted) : Checked Buffer := do
  let edited ← new.extendFields fields growth
  match edited.outcome with
  | .ok () => return edited.buffer
  | .error error => throw error

/-- A buffer that adopts bytes from elsewhere, after looking at all of them. -/
def ofBytes (bytes : Bytes) : Checked Buffer := do
  let v ← View.ofBytes bytes
  v.validate
  return ⟨bytes, Record.maxLength, bytes.length⟩

end Buffer

end FieldRecords
