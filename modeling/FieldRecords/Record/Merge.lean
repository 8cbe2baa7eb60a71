import FieldRecords.Record.Buffer
import FieldRecords.Record.Overlay

/-!
# Merging partial rows into full ones

An update is a record that names some fields of a row. Merging it into the row (`mergeInto`)
writes a record in which

* a field of the row that the update names has the update's value, where it stands (the first of
  several fields of that name);
* a field that the row does not have stands at the end, in the order in which the update first
  names it;
* a name that the update repeats has its last value.

On lists of fields this is `Record.overlay`. Both records are looked at completely before anything
is written. If the merge is refused, the output is the empty record.
-/

namespace FieldRecords

namespace Buffer

/-- One field laid over the record: the first field of that name takes the value, or the field
    is appended. -/
def put (b : Buffer) (f : Field) (growth : Growth := .granted) : Checked Buffer := do
  match ← b.view.locate? f.name with
  | some e =>
    let b ← b.replaceValue e f.value growth
    Metered.count .mergeOverwrite
    return b
  | none =>
    let b ← b.append f growth
    Metered.count .mergeAppend
    return b

/-- Every field of `update` laid over the record, one after the other, up to the first one that
    is refused. -/
def overlay (b : Buffer) (update : View) (growth : Growth := .granted) : Metered Edited := do
  let (b, outcome) ← update.walk.foldUntilRefused (fun b e => b.put e.field growth) b
  return ⟨b, outcome⟩

end Buffer

/-- Looks at both records, `base` first, and takes over `base`. -/
def prepareMerge (base update : View) (out : Buffer) (growth : Growth := .granted) :
    Checked Buffer := do
  base.validate
  update.validate
  out.copy base.bytes growth

/-- `base` with the fields of `update` laid over it, as far as they are accepted. -/
def layOver (base update : View) (out : Buffer) (growth : Growth := .granted) :
    Metered Edited := do
  match ← (prepareMerge base update out growth).run with
  | .ok copied => copied.overlay update growth
  | .error error => return ⟨out, .error error⟩

/-- **Writes `base` with `update` laid over it into `out`.** A refused merge leaves no field, but
    the room that was made until then stays. -/
def mergeInto (base update : View) (out : Buffer) (growth : Growth := .granted) :
    Metered Edited := do
  Metered.sample .merge
  let ⟨merged, outcome⟩ ← layOver base update out growth
  match outcome with
  | .ok () =>
    Metered.count .merge
    Metered.hit .mergedFieldCount merged.length
    Metered.hit .mergedRecordSize merged.bytes.length
    return ⟨merged, .ok ()⟩
  | .error error => return ⟨← merged.clear, .error error⟩

/-- A merge into a buffer of its own. -/
def merge (base update : View) (growth : Growth := .granted) : Checked Buffer := do
  let edited ← mergeInto base update
    (Buffer.ofCapacity (base.bytes.length + update.bytes.length)) growth
  match edited.outcome with
  | .ok () => return edited.buffer
  | .error error => throw error

/-- Merges one row after another into the same buffer, so that the buffer is made once. -/
structure Merger where
  scratch : Buffer

namespace Merger

def new : Merger := ⟨Buffer.new⟩

def withConfig (config : Config) : Except Fault Merger := do
  return ⟨← Buffer.withConfig config⟩

/-- Lays `update` over `base`. The result is a view of the merger's buffer, so it lasts until the
    next merge. -/
def merge (m : Merger) (base update : View) (growth : Growth := .granted) :
    Metered (Merger × Except CodecError View) := do
  let edited ← mergeInto base update m.scratch growth
  return (⟨edited.buffer⟩, edited.outcome.map fun () => edited.buffer.view)

end Merger

end FieldRecords
