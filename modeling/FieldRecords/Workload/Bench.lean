import FieldRecords.Document.Json
import FieldRecords.Store.Engines
import FieldRecords.Store.RowStore
import FieldRecords.Workload.BenchPlan
import FieldRecords.Workload.Schema

/-!
# Setting up and loading a bench

A configuration is put to use in two steps. Setting up checks it in a fixed order (`Bench.setUp`):
the engine is there, the mix adds up, there are fields, the room for a row makes sense, there is a
sampler. Loading writes the rows with the ids from zero on. Sixteen loaders share the ids evenly;
each has a row store, a row and a recorder of its own, and is a program over the shared store
(`Bench.loader`). Their recorders are summed.
-/

namespace FieldRecords

/-- What setting up gives. -/
structure Bench (U Z : Type) where
  config : BenchConfig
  codec : Config
  schema : Schema
  sampler : Sampler U Z

namespace Bench

variable {U Z T : Type} [TimeTally T]

/-! ## 1. Setting up -/

/-- The bytes that a row is given room for: the count and all fields, with twenty digits for the
    number in a name. The sum wraps at 2^64. -/
def rowSize (c : BenchConfig) : UInt64 :=
  let fieldCount : UInt64 := c.fieldCount
  let fieldLength : UInt64 := c.fieldLength
  4 + fieldCount * (8 + c.fieldStem.utf8ByteSize.toUInt64 + 20 + fieldLength)

/-- The settings of the codec for rows of this size. -/
def codecConfig (c : BenchConfig) : Config :=
  { Config.standard with initialCapacity := (rowSize c).toNat }

/-- The engine, if it is there. -/
def checkEngine (c : BenchConfig) : Except Fault Unit :=
  match (c.engine : Engine) with
  | .memory | .null => .ok ()
  | .absent engine => .error (.engineAbsent engine)

/-- **Checks a configuration and makes what a run needs.** -/
def setUp [UniformDraws U] [ZipfDraws Z] (c : BenchConfig) : Except Fault (Bench U Z) := do
  checkEngine c
  if !Mix.isValid c.mix then throw .mixNotHundred
  let schema ← Schema.create c.fieldStem (UInt64.toNat c.fieldCount) (UInt64.toNat c.fieldLength)
  (codecConfig c).validate.mapError Fault.settings
  let sampler ← Sampler.create c.distribution 0 c.recordCount
  return ⟨c, codecConfig c, schema, sampler⟩

/-! ## 2. Loading -/

/-- How many loaders share the ids. -/
def loaders : Nat := 16

/-- Loads rows one after the other: fills the row, stores it, and goes on with the next id. -/
def loadRows (b : Bench U Z) : RowStore → Buffer → Bytes → Recorder T → List UInt64 →
    Program (Except Fault (Recorder T))
  | _, _, _, recorder, [] => return .ok recorder
  | rows, row, value, recorder, id :: ids => do
    let filled := b.schema.fillRow row value id
    match filled.value.outcome with
    | .ok (.ok ()) =>
      let stored ← rows.insert (Schema.key id) filled.value.row.view
      if stored.value.status = .ok then
        b.loadRows stored.value.client filled.value.row filled.value.value
          ((recorder.recordAll filled.events).recordAll stored.events) ids
      else
        return .error .loaderStopped
    | _ => return .error .loaderStopped

/-- The ids of one loader. -/
def idsOf (perLoader number : Nat) : List UInt64 :=
  (List.range perLoader).map fun i => (number * perLoader + i).toUInt64

/-- **The loader with this number**: buffers of its own first, and then its share of the ids. -/
def loader (b : Bench U Z) (number : Nat) : Program (Except Fault (Recorder T)) :=
  match RowStore.withConfig b.codec, Buffer.withConfig b.codec with
  | .ok rows, .ok row =>
    b.loadRows rows row [] Recorder.empty (idsOf (b.config.recordCount.toNat / loaders) number)
  | _, _ => return .error .loaderStopped

/-- All loaders, each with its share. -/
def allLoaders (b : Bench U Z) : List (Program (Except Fault (Recorder T))) :=
  (List.range loaders).map b.loader

/-- Runs loaders one after the other and sums their recorders. -/
def runLoaders {σ : Type} [KeyValueStore σ] :
    List (Program (Except Fault (Recorder T))) → Recorder T → σ → Except Fault (Recorder T × σ)
  | [], sum, s => .ok (sum, s)
  | p :: ps, sum, s =>
    match p.run s with
    | (.ok recorder, s) => runLoaders ps (sum.add recorder) s
    | (.error fault, _) => .error fault

/-- **Loads all rows into a store.** The ids must be shared out evenly. -/
def load {σ : Type} [KeyValueStore σ] (b : Bench U Z) (s : σ) : Except Fault (Recorder T × σ) :=
  let remainder := b.config.recordCount.toNat % loaders
  if remainder = 0 then runLoaders b.allLoaders Recorder.empty s
  else .error (.unevenLoad remainder)

/-! ## 3. A whole bench -/

/-- What a bench publishes: the configuration, what loading metered, and for every number of
    threads how many times it was run. -/
structure Report (T : Type) where
  config : BenchConfig
  loadMetrics : Recorder T
  runs : List (UInt64 × UInt64)

/-- The document of a report. -/
def Report.toDocument (r : Report T) : Document :=
  .table [
    ("config", r.config.toDocument),
    ("load", .table [("load_metrics", r.loadMetrics.toDocument)]),
    ("cleanup", .null),
    ("runs", .list (r.runs.map fun (threads, count) =>
      .list [.natural threads, .natural count]))]

/-- **The text that a report is published as.** -/
def Report.text (r : Report T) : String := r.toDocument.toJson

/-- **Sets a configuration up, loads its store and reports.** -/
def report (U Z : Type) [UniformDraws U] [ZipfDraws Z] (c : BenchConfig) :
    Except Fault (Report T) := do
  let b : Bench U Z ← setUp c
  let metrics ← match (c.engine : Engine) with
    | .null => (b.load NullStore.mk).map Prod.fst
    | _ => (b.load (∅ : MemoryStore)).map Prod.fst
  return ⟨c, metrics, c.threads.map fun count => (count, c.repetitions)⟩

end Bench

end FieldRecords
