import FieldRecords.Record.Buffer
import FieldRecords.Record.Selection

/-!
# Keeping the wanted fields

A projection writes the wanted fields of a record into a buffer that is cleared first.

* In stored order (`projectBySource`) every field with a wanted name is kept, repeated names
  included, in one pass.
* In asked order (`projectByRequest`) the record is looked at completely, and then every wanted
  name is looked up once and the first field of that name kept.

Wanted names that the record does not have are passed over. Nothing wanted gives the empty record,
whatever the bytes are. If the projection is refused, the output is the empty record.
-/

namespace FieldRecords

/-- The next stored field: accepted if it is wanted, and otherwise passed over. -/
def keepWanted (wanted : Selection) (out : Buffer) (growth : Growth) (kept : Buffer.Batch)
    (e : Entry) : Checked Buffer.Batch :=
  if wanted.wants e.name then do
    let kept ← out.accept kept e.field growth
    Metered.count .projectKept
    return kept
  else do
    Metered.count .projectSkipped
    return kept

/-- The wanted fields, as they are stored: one after the other is accepted, and then all are
    written. -/
def projectBySource (v : View) (wanted : Selection) (out : Buffer)
    (growth : Growth := .granted) : Metered Edited := do
  let (kept, outcome) ← v.walk.foldUntilRefused (keepWanted wanted out growth) out.batch
  return ⟨out.write kept, outcome⟩

/-- One wanted name: passed over if the output has it already or the record does not. -/
def keepFirst (v : View) (growth : Growth) (out : Buffer) (name : Bytes) : Checked Buffer := do
  if ← out.view.contains name then
    return out
  else
    match ← v.get? name with
    | some value =>
      let out ← out.append ⟨name, value⟩ growth
      Metered.count .projectKept
      return out
    | none => return out

/-- The wanted fields, as they are asked for. The record is looked at first, so that a fault at
    its end cannot hide behind fields that are found early. -/
def projectByRequest (v : View) (wanted : Selection) (out : Buffer)
    (growth : Growth := .granted) : Metered Edited := do
  match ← v.validate.run with
  | .ok () =>
    let (out, outcome) ← Checked.foldUntilRefused (keepFirst v growth) wanted.names out
    return ⟨out, outcome⟩
  | .error error => return ⟨out, .error error⟩

/-- **Writes the wanted fields of a record into `out`.** A refused projection leaves no field, but
    the room that was made until then stays. -/
def project (v : View) (wanted : Selection) (order : ProjectionOrder) (out : Buffer)
    (growth : Growth := .granted) : Metered Edited := do
  Metered.sample .project
  let out ← out.clear
  if wanted.isEmpty then
    return ⟨out, .ok ()⟩
  else
    let ⟨kept, outcome⟩ ← match order with
      | .source => projectBySource v wanted out growth
      | .request => projectByRequest v wanted out growth
    match outcome with
    | .ok () =>
      Metered.count .project
      Metered.hit .projectedFieldCount kept.length
      return ⟨kept, .ok ()⟩
    | .error error => return ⟨← kept.clear, .error error⟩

/-- A projection into a buffer of its own. -/
def projectToBuffer (v : View) (wanted : Selection) (order : ProjectionOrder)
    (growth : Growth := .granted) : Checked Buffer := do
  let edited ← project v wanted order (Buffer.ofCapacity v.bytes.length) growth
  match edited.outcome with
  | .ok () => return edited.buffer
  | .error error => throw error

end FieldRecords
