import FieldRecords.Record.Buffer
import FieldRecords.Text.Utf8

/-!
# Generated rows

A schema fixes the names and the length of the values of generated rows. Keys and values follow
from numbers alone: a number is scrambled (`scramble`, a bijection on 64 bits), its twenty digits
make a key of fixed length (`Schema.key`), and its bits make the letters of a value
(`Schema.value`). So the same number gives the same row in every run, and consecutive numbers do
not give keys that are close in key order.

Names and values are made only if there can be room for them (`Room.ask`); a row or a value that
is refused for lack of room is left empty.
-/

namespace FieldRecords

/-- Spreads a number over 64 bits: shifted copies and odd multiples, each of which can be
    undone. -/
def scramble (n : UInt64) : UInt64 :=
  let n := n ^^^ (n >>> 33)
  let n := n * 0xff51afd7ed558ccd
  let n := n ^^^ (n >>> 33)
  let n := n * 0xc4ceb9fe1a85ec53
  n ^^^ (n >>> 33)

/-- The last `width` decimal digits of a number, the most significant first. -/
def decimalDigits : Nat → Nat → Bytes
  | 0, _ => []
  | width + 1, n => decimalDigits width (n / 10) ++ [(48 + n % 10).toUInt8]

/-- The names of the fields of generated rows, and the length of every value. -/
structure Schema where
  names : List String
  valueLength : Nat

/-- What filling leaves: the row, the last value that was made, and how it went. -/
structure Schema.Filled where
  row : Buffer
  value : Bytes
  outcome : Except Fault (Except CodecError Unit)

namespace Schema

/-- The schema with the fields `stem0`, `stem1`, …, of which there must be one at least, and no
    more than there can be room for. -/
def create (stem : String) (fieldCount valueLength : Nat) : Except Fault Schema := do
  if fieldCount = 0 then throw .noFields
  Room.ask fieldCount Room.perText
  return ⟨(List.range fieldCount).map fun i => stem ++ toString i, valueLength⟩

/-! ## 1. Keys and values -/

/-- **The key of a row**: a fixed word and the twenty digits of the scrambled id. -/
def key (id : UInt64) : Bytes :=
  Utf8.ofText "user" ++ decimalDigits 20 (scramble id).toNat

/-- **Makes a key anew** where another one may stand, of which nothing is left. -/
def fillKey (held : Bytes) (id : UInt64) : Bytes := held.take 0 ++ key id

/-- The letter at a place of the value made from `bits`. -/
def letter (bits : UInt64) (place : Nat) : UInt8 :=
  97 + (bits >>> (place % 8).toUInt64).toUInt8 % 26

/-- **The value made from a number**: small letters, as many as the schema says. -/
def value (s : Schema) (seed : UInt64) : Bytes :=
  let bits := scramble seed
  (List.range s.valueLength).map (letter bits)

/-- The value made from a number, if there can be room for it. -/
def makeValue (s : Schema) (seed : UInt64) : Except Fault Bytes := do
  Room.ask s.valueLength 1
  return s.value seed

/-- **Makes a value anew.** Without room for it there is none, and not the one before either. -/
def fillValue (s : Schema) (seed : UInt64) : Bytes × Except Fault Unit :=
  match s.makeValue seed with
  | .ok value => (value, .ok ())
  | .error fault => ([], .error fault)

/-! ## 2. Rows -/

/-- A field for each name, each with the value of the next number, up to the first field that the
    row refuses or that there is no value for: the fields behind those that are accepted already,
    the last value that was made, and how it went. -/
def acceptFields (s : Schema) (row : Buffer) : List String → UInt64 → Buffer.Batch → Bytes →
    Metered (Buffer.Batch × Bytes × Except Fault (Except CodecError Unit))
  | [], _, accepted, value => pure (accepted, value, .ok (.ok ()))
  | name :: names, seed, accepted, _ => do
    match s.makeValue seed with
    | .error fault => return (accepted, [], .error fault)
    | .ok value =>
      match ← (row.accept accepted ⟨Utf8.ofText name, value⟩).run with
      | .ok accepted => s.acceptFields row names (seed + 1) accepted value
      | .error error => return (accepted, value, .ok (.error error))

/-- **Fills a row with all fields**, which have the values of consecutive numbers. -/
def fillRow (s : Schema) (row : Buffer) (value : Bytes) (seed : UInt64) : Metered Filled := do
  let row ← row.clear
  let (accepted, value, outcome) ← s.acceptFields row s.names seed row.batch value
  return ⟨row.write accepted, value, outcome⟩

/-- **Fills a row with one field**, known by its place in the schema. -/
def fillField (s : Schema) (row : Buffer) (place : Nat) (seed : UInt64) : Metered Filled := do
  let row ← row.clear
  match s.makeValue seed, s.names[place]? with
  | .error fault, _ => return ⟨row, [], .error fault⟩
  | .ok value, none => return ⟨row, value, .error (.indexOutOfBounds s.names.length place)⟩
  | .ok value, some name =>
    match ← (row.append ⟨Utf8.ofText name, value⟩).run with
    | .ok row => return ⟨row, value, .ok (.ok ())⟩
    | .error error => return ⟨row, value, .ok (.error error)⟩

end Schema

end FieldRecords
