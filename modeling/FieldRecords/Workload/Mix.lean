import FieldRecords.Fault

/-!
# Operation mixes

A mix says how many of a hundred operations are of which kind. One of the numbers 0 to 99 is
drawn, and the kind is found by counting up the percentages in a fixed order (`Mix.pick`). All
sums wrap at 2^64, also the one that is compared with a hundred (`Mix.isValid`).
-/

namespace FieldRecords

/-- The kinds of operations on rows. -/
inductive Operation where
  | read
  | update
  | insert
  | scan
  | readModifyWrite
  | delete
deriving DecidableEq

namespace Operation

def name : Operation → String
  | read => "Read"
  | update => "Update"
  | insert => "Insert"
  | scan => "Scan"
  | readModifyWrite => "ReadModifyWrite"
  | delete => "Delete"

end Operation

/-- How many of a hundred operations are of each kind. -/
structure Mix where
  read : UInt64
  update : UInt64
  insert : UInt64
  scan : UInt64
  readModifyWrite : UInt64
  delete : UInt64
deriving DecidableEq

namespace Mix

/-- The kinds with their percentages, in the order in which they are counted up. -/
def shares (m : Mix) : List (Operation × UInt64) :=
  [(.read, m.read), (.update, m.update), (.insert, m.insert), (.scan, m.scan),
    (.readModifyWrite, m.readModifyWrite), (.delete, m.delete)]

/-- The percentages are a hundred together. -/
def isValid (m : Mix) : Bool :=
  m.read + m.update + m.insert + m.scan + m.readModifyWrite + m.delete == 100

/-- The first kind whose bar lies above the draw; `bar` is where the kinds before end. -/
def pickFrom (draw : UInt64) : UInt64 → List (Operation × UInt64) → Option Operation
  | _, [] => none
  | bar, (operation, share) :: rest =>
    if draw < bar + share then some operation else pickFrom draw (bar + share) rest

/-- **The kind that a draw stands for.** A draw beyond the last bar is a fault. -/
def pick (m : Mix) (draw : UInt64) : Except Fault Operation :=
  match pickFrom draw 0 m.shares with
  | some operation => .ok operation
  | none => .error .drawBeyondMix

end Mix

end FieldRecords
