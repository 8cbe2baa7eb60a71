import FieldRecords.Record.Buffer

/-!
# Changing a buffer in place

A change in place goes step by step: it looks at something, asks for room or writes, and what it
has written stays, even if a later step is refused (`InPlace`). These are the changes of a single
record, with the checks, the demands for memory and the writes in the order in which they are
made. What comes of a change as a whole is `Buffer.append`, `Buffer.extendFields`, `Buffer.reserve`,
`Buffer.assign` and `Buffer.replaceValue`.
-/

namespace FieldRecords

/-- A change of a buffer, which may be refused on the way. -/
abbrev InPlace (α : Type) : Type := ExceptT CodecError (StateT Buffer Metered) α

namespace InPlace

/-- **What a change leaves**, refused or not. -/
def edit (x : InPlace Unit) (b : Buffer) : Metered Edited := do
  let (outcome, b) ← x.run.run b
  return ⟨b, outcome⟩

/-- Something else is looked at. -/
def look {α : Type} (x : Checked α) : InPlace α := ExceptT.mk (StateT.lift x.run)

/-- Counts one occurrence. -/
def count (counter : Counter) : InPlace Unit := look (Metered.count counter)

/-- No name and no value may be longer than the limit. -/
def checkLength (length : Nat) : InPlace Unit := do
  let b ← get
  if b.limit < length then
    throw (.fieldTooLarge length b.limit)

/-- There may be no more fields than the count can tell. -/
def checkCount : InPlace Unit := do
  let b ← get
  if Record.maxLength ≤ b.length then
    throw .tooManyFields

/-- Room for `additional` further bytes, or memory for them. -/
def reserve (additional : Nat) (growth : Growth := .granted) : InPlace Unit := do
  let b ← get
  match (growth.within b.room).ask (b.bytes.length + additional) with
  | .ok () => set (b.grow (b.bytes.length + additional))
  | .error cause => throw (.allocation cause)

/-- Bytes at the end. -/
def push (bytes : Bytes) : InPlace Unit := modify fun b => b.push bytes

/-- **Appends one field**: the two lengths and the count are looked at, room is made, and then the
    field is written in four parts and the count anew. -/
def append (f : Field) (growth : Growth := .granted) : InPlace Unit := do
  checkLength f.name.length
  checkLength f.value.length
  checkCount
  let before ← get
  reserve (Field.size f.name.length f.value.length) growth
  push (Bytes.u32 f.name.length)
  push f.name
  push (Bytes.u32 f.value.length)
  push f.value
  modify fun b => b.withCount (before.length + 1)
  count .recordAppend

/-- **Appends several fields**, one after the other. -/
def extendFields (fields : List Field) (growth : Growth := .granted) : InPlace Unit :=
  fields.forM fun f => append f growth

/-- Takes over the bytes of a record that is known to be complete. Room is made before the old
    bytes go. -/
def copy (bytes : Bytes) (growth : Growth := .granted) : InPlace Unit := do
  let before ← get
  reserve (bytes.length - before.bytes.length) growth
  modify fun b => b.withBytes []
  push bytes
  count .recordAssign

/-- **Takes over another record**, after looking at all of it. -/
def assign (v : View) (growth : Growth := .granted) : InPlace Unit := do
  look v.validate
  copy v.bytes growth

/-- **Replaces the value of an entry** of this record: the length is looked at, room is made for a
    longer value, then what follows moves and the length of the value is written anew. -/
def replaceValue (e : Entry) (value : Bytes) (growth : Growth := .granted) : InPlace Unit := do
  checkLength value.length
  if e.value.length = value.length then
    modify fun b => { b with bytes := b.bytes.overwrite e.valueStart value }
  else
    if e.value.length < value.length then
      reserve (value.length - e.value.length) growth
    modify fun b => b.withBytes (b.bytes.splice e.valueStart e.valueEnd value)
    modify fun b => b.withBytes (b.bytes.overwrite e.nameEnd (Bytes.u32 value.length))

end InPlace

end FieldRecords
