import FieldRecords.Config
import FieldRecords.Document.Decode
import FieldRecords.Text.Utf8
import FieldRecords.Toml.Value

/-!
# Settings from a file

A settings file is a TOML document with all three settings; other entries are passed over. The
order of projections is named `PreserveSourceOrder` or `PreserveRequestOrder`.
-/

namespace FieldRecords

namespace ProjectionOrder

def name : ProjectionOrder → String
  | source => "PreserveSourceOrder"
  | request => "PreserveRequestOrder"

/-- The order that a document names. -/
def ofDocument? (dialect : Dialect) (d : Document) : Option ProjectionOrder := do
  let (name, content) ← d.variant?
  if !Document.isNoContent dialect content then none
  [source, request].find? fun order => order.name == name

end ProjectionOrder

namespace Config

/-- The settings that a document writes, sensible or not. -/
def ofDocument? (d : Document) : Option Config := do
  match ← d.fields? .toml ["initial_capacity", "max_field_len", "projection_order"] with
  | [capacity, length, order] =>
    some ⟨(← capacity.toUInt64?).toNat, (← length.toUInt64?).toNat,
      ← ProjectionOrder.ofDocument? .toml order⟩
  | _ => none

/-- **The settings in a file**, which may be missing. They are given only if they make sense. -/
def ofFile (contents : Option Bytes) : Except ConfigError Config :=
  match contents.bind Utf8.toText? with
  | none => .error .unreadable
  | some text =>
    match (Document.ofToml? text).bind ofDocument? with
    | none => .error .unparsable
    | some config => config.validate.map fun () => config

end Config

end FieldRecords
