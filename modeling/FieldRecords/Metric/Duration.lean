import FieldRecords.Fault

/-!
# Durations

A length of time as whole seconds and the nanoseconds of a started second.
-/

namespace FieldRecords

/-- Whole seconds, and less than 10^9 nanoseconds. -/
structure Duration where
  seconds : UInt64
  nanos : Nat
deriving DecidableEq

namespace Duration

/-- The duration of so many seconds and nanoseconds. Full seconds among the nanoseconds are
    carried over. -/
def ofParts (seconds : UInt64) (nanos : Nat) : Except Fault Duration :=
  let total := seconds.toNat + nanos / 1000000000
  if total < 18446744073709551616 then .ok ⟨total.toUInt64, nanos % 1000000000⟩
  else .error .durationOverflow

/-- The whole length in nanoseconds. -/
def toNanos (d : Duration) : Nat := d.seconds.toNat * 1000000000 + d.nanos

/-- The whole length in seconds, each part rounded on its own. -/
def toSeconds (d : Duration) : Float := d.seconds.toFloat + d.nanos.toUInt64.toFloat / 1e9

end Duration

end FieldRecords
