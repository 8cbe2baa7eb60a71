/-!
# Tallies of times

A timer collects lengths of time in nanoseconds. How it collects them is not settled here: a type of
tallies says what a tally without samples is, how a sample is recorded, how two tallies are added,
how all samples are dropped, and what can be read off a tally (`TimeTally`). Of all this **only the
number of samples is relied on**, and only below 2^64 (`LawfulTimeTally`). So a tally may well
depend on the order in which it was told its samples.
-/

namespace FieldRecords

/-- A type of tallies of times. -/
class TimeTally (T : Type) where
  /-- No samples. -/
  empty : T
  /-- One sample more, of this many nanoseconds. -/
  record : T → UInt64 → T
  /-- The samples of both. -/
  add : T → T → T
  /-- Back to no samples. -/
  reset : T → T
  /-- How many samples there are. -/
  samples : T → UInt64
  /-- A length that a share of the samples do not exceed. -/
  quantile : T → Float → UInt64

/-- Samples are counted, as long as there are fewer than 2^64 of them. -/
class LawfulTimeTally (T : Type) [TimeTally T] : Prop where
  samples_empty : (TimeTally.samples (TimeTally.empty : T)).toNat = 0
  samples_reset : ∀ t : T, (TimeTally.samples (TimeTally.reset t)).toNat = 0
  samples_record : ∀ (t : T) (nanos : UInt64),
    (TimeTally.samples t).toNat + 1 < 18446744073709551616 →
    (TimeTally.samples (TimeTally.record t nanos)).toNat = (TimeTally.samples t).toNat + 1
  samples_add : ∀ a b : T,
    (TimeTally.samples a).toNat + (TimeTally.samples b).toNat < 18446744073709551616 →
    (TimeTally.samples (TimeTally.add a b)).toNat =
      (TimeTally.samples a).toNat + (TimeTally.samples b).toNat

namespace TimeTally

variable {T : Type} [TimeTally T]

/-- The quantiles of a report, with their names. -/
def reported : List (String × Float) :=
  [("50th", 0.5), ("75th", 0.75), ("90th", 0.9), ("95th", 0.95), ("99th", 0.99),
    ("99.9th", 0.999), ("99.99th", 0.9999), ("max", 1.0)]

/-- A report: the number of samples and the quantiles. -/
def summary (t : T) : List (String × UInt64) :=
  ("count", samples t) :: reported.map fun (name, q) => (name, quantile t q)

/-- **No sample was ever recorded**, however often such tallies were added. -/
inductive Untouched : T → Prop where
  | empty : Untouched (empty : T)
  | add {a b : T} : Untouched a → Untouched b → Untouched (add a b)

namespace Untouched

/-- Then there is none. -/
theorem samples_eq [LawfulTimeTally T] {t : T} (h : Untouched t) : (samples t).toNat = 0 := by
  induction h with
  | empty => exact LawfulTimeTally.samples_empty
  | @add a b _ _ iha ihb =>
    rw [LawfulTimeTally.samples_add a b (by omega), iha, ihb]

/-- Where nothing added to nothing is nothing, the tally is the one without samples. -/
theorem eq_empty (hempty : TimeTally.add TimeTally.empty TimeTally.empty = (TimeTally.empty : T))
    {t : T} (h : Untouched t) : t = TimeTally.empty := by
  induction h with
  | empty => rfl
  | add _ _ iha ihb => rw [iha, ihb, hempty]

end Untouched

end TimeTally

end FieldRecords
