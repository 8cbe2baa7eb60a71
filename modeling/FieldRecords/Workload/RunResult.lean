import FieldRecords.Metric.Duration
import FieldRecords.Metric.Recorder

/-!
# Results of a run

What one worker did: how many operations, how many of them found nothing, and what was metered if
anything was. Results of several workers add up, either to a new result (`RunResult.add`) or into
one of them (`RunResult.addInto`).
-/

namespace FieldRecords

/-- What one worker did. -/
structure RunResult (T : Type) where
  throughput : UInt64
  notFound : UInt64
  metrics : Option (Recorder T)

namespace RunResult

variable {T : Type} [TimeTally T]

/-- Nothing was done. -/
def zero : RunResult T := ⟨0, 0, none⟩

/-- **The sum of two results.** What was metered in neither is not metered in the sum. -/
def add (a b : RunResult T) : RunResult T :=
  let metrics := match a.metrics, b.metrics with
    | some m₁, some m₂ => some (m₁.add m₂)
    | none, some m₂ => some m₂
    | m₁, none => m₁
  ⟨a.throughput + b.throughput, a.notFound + b.notFound, metrics⟩

/-- A result into which another is counted. -/
def addInto (a b : RunResult T) : RunResult T :=
  let counted := { a with
    throughput := a.throughput + b.throughput
    notFound := a.notFound + b.notFound }
  match a.metrics, b.metrics with
  | some m₁, some m₂ => { counted with metrics := some (m₁.add m₂) }
  | none, some m₂ => { counted with metrics := some m₂ }
  | _, none => counted

/-- The result in words. -/
def text (r : RunResult T) : String :=
  s!"Throughput: {r.throughput.toNat} ops/sec, not found: {r.notFound.toNat}"

/-- The one number by which results are compared. -/
def shortValue (r : RunResult T) : UInt64 := r.throughput

/-- The same result per second. -/
def perSecond (r : RunResult T) (d : Duration) : RunResult T :=
  { r with throughput := (r.throughput.toFloat / d.toSeconds).toUInt64 }

end RunResult

end FieldRecords
