import FieldRecords.Decimal.Layout
import FieldRecords.Document.Decode
import FieldRecords.Metric.Report
import FieldRecords.Workload.Mix
import FieldRecords.Workload.RunResult
import FieldRecords.Workload.Sampler

/-!
# Workloads in documents

How distributions, mixes and results are written in documents, and how distributions and mixes are
read back. Each also has a text in which it can be part of a name.
-/

namespace FieldRecords

namespace Distribution

/-- The distribution that a document writes: `Uniform`, or `HotSpot` or `Zipf` with a number. -/
def ofDocument? (dialect : Dialect) (d : Document) : Option Distribution := do
  let (name, content) ← d.variant?
  match name with
  | "Uniform" => if Document.isNoContent dialect content then some uniform else none
  | "HotSpot" => return hotSpot (← (← content).toFloat?)
  | "Zipf" => return zipf (← (← content).toFloat?)
  | _ => none

def toDocument : Distribution → Document
  | uniform => .text "Uniform"
  | hotSpot share => .table [("HotSpot", .float share)]
  | zipf exponent => .table [("Zipf", .float exponent)]

/-- Floats in names are written out from the fourth place behind the point on. -/
def floatFormat : FloatFormat := ⟨-4, .up⟩

/-- The distribution as part of a name. -/
def label : Distribution → String
  | uniform => "Uniform"
  | hotSpot share => s!"HotSpot({floatText floatFormat share})"
  | zipf exponent => s!"Zipf({floatText floatFormat exponent})"

end Distribution

namespace Mix

/-- The percentages with the names they have in documents. -/
def entries (m : Mix) : List (String × UInt64) :=
  [("read", m.read), ("update", m.update), ("insert", m.insert), ("scan", m.scan),
    ("read_modify_write", m.readModifyWrite), ("delete", m.delete)]

/-- The mix that a document writes. -/
def ofDocument? (dialect : Dialect) (d : Document) : Option Mix := do
  let fields ← d.fields? dialect
    ["read", "update", "insert", "scan", "read_modify_write", "delete"]
  match ← fields.mapM Document.toUInt64? with
  | [read, update, insert, scan, readModifyWrite, delete] =>
    some ⟨read, update, insert, scan, readModifyWrite, delete⟩
  | _ => none

def toDocument (m : Mix) : Document :=
  .table (m.entries.map fun (name, n) => (name, .natural n))

/-- The mix as part of a name. -/
def label (m : Mix) : String :=
  let parts := m.entries.map fun (name, n) => s!"{name}: {n.toNat}"
  "WorkloadMix \x7b " ++ ", ".intercalate parts ++ " \x7d"

end Mix

namespace RunResult

def toDocument {T : Type} [TimeTally T] (r : RunResult T) : Document :=
  .table [("throughput", .natural r.throughput), ("not_found", .natural r.notFound),
    ("metrics", match r.metrics with
      | some m => m.toDocument
      | none => .null)]

end RunResult

end FieldRecords
