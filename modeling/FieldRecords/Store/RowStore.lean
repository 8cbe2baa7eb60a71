import FieldRecords.Store.Program
import FieldRecords.Record.Merge
import FieldRecords.Record.Projection
import FieldRecords.Metric.Recorder

/-!
# Rows in a key-value store

A row store keeps rows as records in a key-value store, which knows nothing of records. Every
client has a row store of its own and shares only the key-value store; what is its own are the
buffers it uses again and the order of its projections.

Each operation is a program over the key-value store. An update reads the stored row, merges the
new values into it and writes the row back, so it is two requests, and another client may come
between them. Bytes that are no record are reported (`Status.error`) together with one warning,
and are left as they are.
-/

namespace FieldRecords

/-- How an operation on rows went. -/
inductive Status where
  | ok
  | error
  | notFound
  | notImplemented
deriving DecidableEq

namespace Status

def name : Status → String
  | ok => "Ok"
  | error => "Error"
  | notFound => "NotFound"
  | notImplemented => "NotImplemented"

end Status

/-- A row that is no record: the key the operation was given, and what is wrong. -/
structure Warning where
  key : Bytes
  error : CodecError
deriving DecidableEq

namespace Warning

/-- The text all warnings have. -/
def message : String := "malformed row"

/-- The key as text. -/
def keyText (w : Warning) : String := Utf8.toTextLossy w.key

end Warning

/-- What one client keeps between operations. -/
structure RowStore where
  merger : Merger
  order : ProjectionOrder
  readBuffer : Bytes

/-- What an operation leaves: the client, how it went, what was logged, and what it filled. -/
structure RowStore.Outcome (α : Type) where
  client : RowStore
  status : Status
  warnings : List Warning
  result : α

namespace RowStore

variable {α : Type}

def withConfig (config : Config) : Except Fault RowStore := do
  return ⟨← Merger.withConfig config, config.projectionOrder, []⟩

/-- The status of an answer, and a warning if it is an error. -/
def conclude (client : RowStore) (key : Bytes) (answer : Except CodecError Unit) (result : α) :
    Outcome α :=
  match answer with
  | .ok () => ⟨client, .ok, [], result⟩
  | .error error => ⟨client, .error, [⟨key, error⟩], result⟩

/-- Fills a buffer from the bytes of a stored row: with the whole row if no names are given, and
    otherwise with the wanted fields. -/
def fillRow (stored : Bytes) (wanted : Option Selection) (order : ProjectionOrder) (out : Buffer) :
    Metered Edited := do
  match ← (View.ofBytes stored).run with
  | .error error => return ⟨out, .error error⟩
  | .ok v =>
    match wanted with
    | some wanted => project v wanted order out
    | none =>
      match ← (out.assign v).run with
      | .ok out => return ⟨out, .ok ()⟩
      | .error error => return ⟨out, .error error⟩

/-- **Reads one row** into `result`, which is cleared first. -/
def read (rows : RowStore) (key : Bytes) (wanted : Option Selection) (result : Buffer) :
    Program (Metered (Outcome Buffer)) := do
  match ← Program.ask (.read key) with
  | none => return do
    return ⟨rows, .notFound, [], ← result.clear⟩
  | some stored => return do
    let filled ← fillRow stored wanted rows.order (← result.clear)
    return { rows with readBuffer := stored }.conclude key filled.outcome filled.buffer

/-- Fills one buffer per stored row, up to the first row that is no record. Old buffers are used
    first; those that are left over are dropped. -/
def fillRows (wanted : Option Selection) (order : ProjectionOrder) :
    List (Bytes × Bytes) → List Buffer → Metered (List Buffer × Except CodecError Unit)
  | [], _ => pure ([], .ok ())
  | (_, stored) :: pairs, old => do
    let filled ← fillRow stored wanted order (old.head?.getD Buffer.new)
    match filled.outcome with
    | .error error => return ([], .error error)
    | .ok () =>
      let (buffers, outcome) ← fillRows wanted order pairs old.tail
      return (filled.buffer :: buffers, outcome)

/-- **Reads up to `count` rows in key order**, from the first key on that is not below `key`. -/
def scan (rows : RowStore) (key : Bytes) (count : Nat) (wanted : Option Selection)
    (result : List Buffer) : Program (Metered (Outcome (List Buffer))) := do
  match ← Program.ask (.scan key count) with
  | none => return pure ⟨rows, .notImplemented, [], []⟩
  | some pairs => return do
    let (buffers, outcome) ← fillRows wanted rows.order pairs result
    return rows.conclude key outcome buffers

/-- **Lays `values` over the stored row** and writes the result back. -/
def update (rows : RowStore) (key : Bytes) (values : View) :
    Program (Metered (Outcome Unit)) := do
  match ← Program.ask (.read key) with
  | none => return pure ⟨rows, .notFound, [], ()⟩
  | some stored =>
    let rows := { rows with readBuffer := stored }
    let merged := do
      match ← (View.ofBytes stored).run with
      | .ok base => rows.merger.merge base values
      | .error error => return (rows.merger, .error error)
    let (merger, answer) := merged.value
    let rows := { rows with merger }
    match answer with
    | .ok row =>
      Program.ask (.update key row.bytes)
      return ⟨rows.conclude key (.ok ()) (), merged.events⟩
    | .error error => return ⟨rows.conclude key (.error error) (), merged.events⟩

/-- **Stores a row**, unless it is no record. -/
def insert (rows : RowStore) (key : Bytes) (values : View) :
    Program (Metered (Outcome Unit)) := do
  let checked := values.validate.run
  match checked.value with
  | .ok () =>
    Program.ask (.insert key values.bytes)
    return ⟨rows.conclude key (.ok ()) (), checked.events⟩
  | .error error => return ⟨rows.conclude key (.error error) (), checked.events⟩

/-- **Drops a row.** -/
def delete (rows : RowStore) (key : Bytes) : Program (Metered (Outcome Unit)) := do
  if ← Program.ask (.delete key) then
    return pure ⟨rows, .ok, [], ()⟩
  else
    return pure ⟨rows, .notFound, [], ()⟩

end RowStore

end FieldRecords
