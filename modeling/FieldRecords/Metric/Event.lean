/-!
# What the codec reports

Every operation on records reports events: it counts (`Counter`), it files a size under a key
(`Histogram`), it takes a time sample (`Timer`). The names are those under which a report is
published.
-/

namespace FieldRecords

/-- What is counted. -/
inductive Counter where
  | recordAppend
  | recordClear
  | recordAssign
  | merge
  | mergeOverwrite
  | mergeAppend
  | project
  | projectKept
  | projectSkipped
  | decodeError
deriving DecidableEq

/-- What is filed by size. -/
inductive Histogram where
  | mergedFieldCount
  | projectedFieldCount
  /-- The bytes of a merge result. -/
  | mergedRecordSize
deriving DecidableEq

/-- What is timed. -/
inductive Timer where
  | merge
  | project
deriving DecidableEq

/-- One report. A time sample carries its length in nanoseconds. -/
inductive Event where
  | count (counter : Counter) (amount : UInt64)
  | hit (histogram : Histogram) (key : UInt64)
  | time (timer : Timer) (nanos : Nat)
deriving DecidableEq

/-! ## Positions and names -/

namespace Counter

/-- All counters, in the order of a report. -/
def all : List Counter :=
  [recordAppend, recordClear, recordAssign, merge, mergeOverwrite, mergeAppend, project,
    projectKept, projectSkipped, decodeError]

/-- The place of a counter in a report. -/
def index : Counter → Fin 10
  | recordAppend => 0
  | recordClear => 1
  | recordAssign => 2
  | merge => 3
  | mergeOverwrite => 4
  | mergeAppend => 5
  | project => 6
  | projectKept => 7
  | projectSkipped => 8
  | decodeError => 9

def name : Counter → String
  | recordAppend => "RecordAppend"
  | recordClear => "RecordClear"
  | recordAssign => "RecordAssign"
  | merge => "Merge"
  | mergeOverwrite => "MergeOverwrite"
  | mergeAppend => "MergeAppend"
  | project => "Project"
  | projectKept => "ProjectKept"
  | projectSkipped => "ProjectSkipped"
  | decodeError => "DecodeError"

end Counter

namespace Histogram

/-- All histograms, in the order of a report. -/
def all : List Histogram := [mergedFieldCount, projectedFieldCount, mergedRecordSize]

/-- The place of a histogram in a report. -/
def index : Histogram → Fin 3
  | mergedFieldCount => 0
  | projectedFieldCount => 1
  | mergedRecordSize => 2

def name : Histogram → String
  | mergedFieldCount => "merged_field_count"
  | projectedFieldCount => "projected_field_count"
  | mergedRecordSize => "merged_record_size"

end Histogram

namespace Timer

/-- All timers, in the order of a report. -/
def all : List Timer := [merge, project]

/-- The place of a timer in a report. -/
def index : Timer → Fin 2
  | merge => 0
  | project => 1

def name : Timer → String
  | merge => "Merge"
  | project => "Project"

end Timer

end FieldRecords
