import FieldRecords.Metric.Event
import Std.Data.ExtTreeMap
import FieldRecords.Metric.TimeTally

/-!
# Recorders

A recorder tallies events: a number for each counter, for each histogram how often each size
came, for each timer the lengths of its samples. Counters and histogram entries wrap at 2^64;
sizes from 65535 on share one entry. How lengths are tallied is left to a type of time tallies.
Recorders add up (`Recorder.add`), so every worker can keep its own.
-/

namespace FieldRecords

/-- How often each size came. -/
abbrev SizeTally := Std.ExtTreeMap UInt16 UInt64 compare

namespace SizeTally

/-- Adds occurrences of one size. -/
def addTo (t : SizeTally) (size : UInt16) (occurrences : UInt64) : SizeTally :=
  t.insert size (t.getD size 0 + occurrences)

/-- The entry a size is filed under: all large sizes share the last one. -/
def entry (size : UInt64) : UInt16 := (min size 65535).toUInt16

/-- One occurrence more. -/
def hit (t : SizeTally) (size : UInt64) : SizeTally := addTo t (entry size) 1

/-- The occurrences of both. -/
def add (a b : SizeTally) : SizeTally := b.foldl addTo a

end SizeTally

/-- Everything that was reported to one worker. -/
structure Recorder (T : Type) where
  counters : Vector UInt64 10
  histograms : Vector SizeTally 3
  timers : Vector T 2

namespace Recorder

variable {T : Type} [TimeTally T]

/-- Nothing was reported. -/
def empty : Recorder T :=
  ⟨Vector.replicate 10 0, Vector.replicate 3 ∅, Vector.replicate 2 TimeTally.empty⟩

/-- Back to nothing reported. -/
def reset (r : Recorder T) : Recorder T :=
  ⟨Vector.replicate 10 0, Vector.replicate 3 ∅, r.timers.map TimeTally.reset⟩

/-! ## 1. Reading -/

def counter (r : Recorder T) (c : Counter) : UInt64 := r.counters[c.index]

def histogram (r : Recorder T) (h : Histogram) : SizeTally := r.histograms[h.index]

def timer (r : Recorder T) (t : Timer) : T := r.timers[t.index]

/-- How many samples a timer has. -/
def samples (r : Recorder T) (t : Timer) : UInt64 := TimeTally.samples (r.timer t)

/-! ## 2. Recording -/

/-- Counts `amount` occurrences. -/
def increment (r : Recorder T) (c : Counter) (amount : UInt64) : Recorder T :=
  { r with counters := r.counters.set c.index (r.counter c + amount) }

/-- Files one occurrence of a size. -/
def hit (r : Recorder T) (h : Histogram) (size : UInt64) : Recorder T :=
  { r with histograms := r.histograms.set h.index ((r.histogram h).hit size) }

/-- The length that is recorded: one nanosecond at least, and no more than 64 bits hold. -/
def clamp (nanos : Nat) : UInt64 :=
  UInt64.ofNat (max 1 (min nanos 18446744073709551615))

/-- Adds a time sample. -/
def addTime (r : Recorder T) (t : Timer) (nanos : Nat) : Recorder T :=
  { r with timers := r.timers.set t.index (TimeTally.record (r.timer t) (clamp nanos)) }

/-- Tallies one event. -/
def record (r : Recorder T) : Event → Recorder T
  | .count c amount => r.increment c amount
  | .hit h size => r.hit h size
  | .time t nanos => r.addTime t nanos

/-- Tallies events in order. -/
def recordAll (r : Recorder T) (events : List Event) : Recorder T := events.foldl record r

@[simp] theorem recordAll_nil (r : Recorder T) : r.recordAll [] = r := rfl

@[simp] theorem recordAll_cons (r : Recorder T) (event : Event) (events : List Event) :
    r.recordAll (event :: events) = (r.record event).recordAll events := rfl

theorem recordAll_append (r : Recorder T) (before after : List Event) :
    r.recordAll (before ++ after) = (r.recordAll before).recordAll after :=
  List.foldl_append

/-! ## 3. Adding up -/

/-- **What was reported to either.** -/
def add (a b : Recorder T) : Recorder T :=
  ⟨Vector.zipWith (· + ·) a.counters b.counters,
    Vector.zipWith SizeTally.add a.histograms b.histograms,
    Vector.zipWith TimeTally.add a.timers b.timers⟩

end Recorder

end FieldRecords
