import FieldRecords.Toml.Value
import FieldRecords.Workload.Document

/-!
# Bench plans

A plan is a TOML document with tables under one name. Each table gives one value for some
settings and a list of values for others, and stands for one configuration per combination of the
listed values: the later a setting, the faster it varies. The name of a configuration is the name
of its table, followed by the values of those settings that list more than one.
-/

namespace FieldRecords

/-- The store that a configuration runs on. -/
inductive Engine where
  | memory
  | null
  | absent (engine : AbsentEngine)
deriving DecidableEq

namespace Engine

def all : List Engine := [memory, null, absent .sled, absent .redb, absent .lmdb]

/-- The engine's name in plans. -/
def name : Engine → String
  | memory => "Memory"
  | null => "Null"
  | absent .sled => "Sled"
  | absent .redb => "ReDB"
  | absent .lmdb => "Lmdb"

/-- The engine that a document names. -/
def ofDocument? (d : Document) : Option Engine := do
  let (name, content) ← d.variant?
  if !Document.isNoContent .toml content then none
  all.find? fun engine => engine.name == name

end Engine

/-- The settings, those that can vary through `φ`. -/
structure BenchSettings (φ : Type → Type) where
  name : String
  threads : List UInt64
  time : UInt64
  repetitions : UInt64
  recordCount : UInt64
  distribution : φ Distribution
  mix : φ Mix
  memoryMegabytes : φ UInt64
  filePath : String
  fieldCount : φ UInt64
  fieldLength : φ UInt64
  fieldStem : String
  readAllFields : Bool
  writeAllFields : Bool
  scanCount : UInt64
  engine : φ Engine

/-- One table of a plan: the settings that vary are lists. -/
abbrev BenchTable := BenchSettings List

/-- One configuration: every setting has one value. -/
abbrev BenchConfig := BenchSettings Id

namespace BenchTable

/-- The items of a list, each read on its own. -/
def listOf? {α : Type} (item? : Document → Option α) (d : Document) : Option (List α) := do
  (← d.toList?).mapM item?

/-- The names of the settings in documents, in order. -/
def settingNames : List String :=
  ["name", "threads", "time", "repeat", "record_cnt", "distribution", "workload_mix",
    "memory_size_mb", "file_path", "field_count", "field_len", "field_prefix",
    "read_all_fields", "write_all_fields", "scan_cnt", "sut"]

/-- The table that a document writes. -/
def ofDocument? (d : Document) : Option BenchTable := do
  match ← d.fields? .toml settingNames with
  | [name, threads, duration, repetitions, recordCount, distribution, mix, memory, filePath,
      fieldCount, fieldLength, fieldStem, readAll, writeAll, scanCount, engine] =>
    some {
      name := ← name.toText?
      threads := ← listOf? Document.toUInt64? threads
      time := ← duration.toUInt64?
      repetitions := ← repetitions.toUInt64?
      recordCount := ← recordCount.toUInt64?
      distribution := ← listOf? (Distribution.ofDocument? .toml) distribution
      mix := ← listOf? (Mix.ofDocument? .toml) mix
      memoryMegabytes := ← listOf? Document.toUInt64? memory
      filePath := ← filePath.toText?
      fieldCount := ← listOf? Document.toUInt64? fieldCount
      fieldLength := ← listOf? Document.toUInt64? fieldLength
      fieldStem := ← fieldStem.toText?
      readAllFields := ← readAll.toBool?
      writeAllFields := ← writeAll.toBool?
      scanCount := ← scanCount.toUInt64?
      engine := ← listOf? Engine.ofDocument? engine }
  | _ => none

/-- The part of a name that a setting gives: its value, if the setting lists more than one. -/
def labelPart {α : Type} (values : List α) (text : String) : String :=
  match values with
  | _ :: _ :: _ => "-" ++ text
  | _ => ""

/-- **All configurations of a table**, the last setting varying fastest. -/
def expand (t : BenchTable) : List BenchConfig :=
  t.distribution.flatMap fun distribution =>
    t.mix.flatMap fun mix =>
      t.memoryMegabytes.flatMap fun memory =>
        t.fieldCount.flatMap fun fieldCount =>
          t.fieldLength.flatMap fun fieldLength =>
            t.engine.map fun engine =>
              { t with
                name := "ycsbbench-" ++ t.name
                  ++ labelPart t.distribution distribution.label
                  ++ labelPart t.mix mix.label
                  ++ labelPart t.memoryMegabytes (toString memory.toNat)
                  ++ labelPart t.fieldCount (toString fieldCount.toNat)
                  ++ labelPart t.fieldLength (toString fieldLength.toNat)
                  ++ labelPart t.engine engine.name
                distribution, mix, fieldCount, fieldLength, engine
                memoryMegabytes := memory }

end BenchTable

namespace BenchConfig

def toDocument (c : BenchConfig) : Document :=
  .table [
    ("name", .text c.name),
    ("threads", .list (c.threads.map .natural)),
    ("time", .natural c.time),
    ("repeat", .natural c.repetitions),
    ("record_cnt", .natural c.recordCount),
    ("distribution", Distribution.toDocument c.distribution),
    ("workload_mix", Mix.toDocument c.mix),
    ("memory_size_mb", .natural c.memoryMegabytes),
    ("file_path", .text c.filePath),
    ("field_count", .natural c.fieldCount),
    ("field_len", .natural c.fieldLength),
    ("field_prefix", .text c.fieldStem),
    ("read_all_fields", .bool c.readAllFields),
    ("write_all_fields", .bool c.writeAllFields),
    ("scan_cnt", .natural c.scanCount),
    ("sut", .text (Engine.name c.engine))]

end BenchConfig

/-- Why a plan has no configurations. -/
inductive PlanError where
  /-- The text is no plan, or a table of it lacks a setting. -/
  | unparsable
  /-- The document has no tables for this bench. -/
  | noTables
deriving DecidableEq

/-- **All configurations of a plan**, table by table. -/
def readPlan (text : String) : Except PlanError (List BenchConfig) :=
  match Document.ofToml? text with
  | some (.table entries) =>
    match Document.find? entries "YcsbBench" with
    | none => .error .noTables
    | some tables =>
      match BenchTable.listOf? BenchTable.ofDocument? tables with
      | some tables => .ok (tables.flatMap BenchTable.expand)
      | none => .error .unparsable
  | _ => .error .unparsable

end FieldRecords
