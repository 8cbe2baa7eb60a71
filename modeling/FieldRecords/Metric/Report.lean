import FieldRecords.Document.Basic
import FieldRecords.Metric.Recorder

/-!
# What a recorder publishes

A recorder is published as a document: all counters, the entries of all histograms that were ever
hit, and for every timer the number of samples and the quantiles.
-/

namespace FieldRecords

namespace SizeTally

/-- The entries, each under its size in decimal. -/
def toDocument (t : SizeTally) : Document :=
  .table (t.toList.map fun (size, occurrences) =>
    (toString size.toNat, .natural occurrences))

end SizeTally

namespace TimeTally

def toDocument {T : Type} [TimeTally T] (t : T) : Document :=
  .table ((summary t).map fun (name, n) => (name, .natural n))

end TimeTally

namespace Recorder

/-- **The document of a recorder.** -/
def toDocument {T : Type} [TimeTally T] (r : Recorder T) : Document :=
  .table [
    ("counters", .table (Counter.all.map fun c => (c.name, .natural (r.counter c)))),
    ("histograms", .table (Histogram.all.map fun h => (h.name, (r.histogram h).toDocument))),
    ("timers", .table (Timer.all.map fun t => (t.name, TimeTally.toDocument (r.timer t))))]

end Recorder

end FieldRecords
