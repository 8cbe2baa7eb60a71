import Std.Data.ExtTreeMap
import FieldRecords.Metric.TimeTally

/-!
# Latencies

A latency is a tally of times that keeps the eleven leading bits of a length, so lengths fall into
buckets (`bucket`): below 2^11 every length has its own, and from there on a bucket is as wide as
the bits that are dropped. A bucket is known by its lowest length. Numbers of samples stop below
2^64, in every bucket and all together.

A quantile is answered by the highest length of the bucket in which it lies (`quantile`), so even
the greatest length that was recorded may be rounded up. To find the bucket, whole stretches of
eight neighbours are counted up first, and then the buckets of one stretch. Both are counted
modulo 2^64. Up to 2^64 - 1 samples that is the first bucket that reaches the quantile; with more,
a stretch that overflows is passed over, and a quantile may lie in no bucket, and is then zero.

Below 2^64 samples the number of samples is exact (`LawfulTimeTally Latency`).
-/

namespace FieldRecords

/-- The sum, or the largest number if the sum is larger. -/
def saturatingAdd (a b : UInt64) : UInt64 :=
  if a + b < a then 0xffffffffffffffff else a + b

/-- How many samples fell into which bucket, and how many there were. -/
structure Latency where
  buckets : Std.ExtTreeMap UInt64 UInt64 compare
  samples : UInt64

namespace Latency

/-- No samples. -/
def empty : Latency := ⟨∅, 0⟩

/-! ## 1. Buckets -/

/-- How many trailing bits of a length are dropped. -/
def droppedBits (nanos : UInt64) : Nat :=
  nanos.toNat.log2 + 1 - 11

/-- The lowest length of the bucket. -/
def bucket (nanos : UInt64) : UInt64 :=
  let k := UInt64.ofNat (droppedBits nanos)
  nanos >>> k <<< k

/-- The highest length of the bucket whose lowest is given: one less than where the next bucket
    starts. Behind the last bucket the next one is taken to start at 2^64 - 1. -/
def highest (lowest : UInt64) : UInt64 :=
  saturatingAdd lowest (1 <<< UInt64.ofNat (droppedBits lowest)) - 1

/-! ## 2. Recording -/

/-- Adds samples to one bucket. -/
def addTo (buckets : Std.ExtTreeMap UInt64 UInt64 compare) (lowest samples : UInt64) :
    Std.ExtTreeMap UInt64 UInt64 compare :=
  buckets.insert lowest (saturatingAdd (buckets.getD lowest 0) samples)

/-- One sample more. -/
def record (l : Latency) (nanos : UInt64) : Latency :=
  ⟨addTo l.buckets (bucket nanos) 1, saturatingAdd l.samples 1⟩

/-- The samples of both. -/
def add (a b : Latency) : Latency :=
  ⟨b.buckets.foldl addTo a.buckets, saturatingAdd a.samples b.samples⟩

/-! ## 3. Quantiles -/

/-- The stretch in which a bucket lies: the buckets have consecutive numbers, 1024 for each bit that
    is dropped, and eight of them make a stretch. -/
def stretch (lowest : UInt64) : Nat :=
  let k := droppedBits lowest
  (1024 * k + lowest.toNat >>> k) / 8

/-- The samples of some buckets together, modulo 2^64. -/
def total (buckets : List (UInt64 × UInt64)) : UInt64 :=
  buckets.foldl (fun samples entry => samples + entry.2) 0

/-- The first bucket, from the lowest, up to which there are `target` samples. -/
def reach (target : UInt64) : UInt64 → List (UInt64 × UInt64) → Option UInt64
  | _, [] => none
  | before, (lowest, samples) :: rest =>
    let upTo := before + samples
    if target ≤ upTo then some lowest else reach target upTo rest

/-- The same, in the first stretch up to which there are `target` samples. -/
def reachStretch (target : UInt64) : UInt64 → List (List (UInt64 × UInt64)) → Option UInt64
  | _, [] => none
  | before, buckets :: rest =>
    let upTo := before + total buckets
    if target ≤ upTo then reach target before buckets else reachStretch target upTo rest

/-- **A length that a share `q` of the samples do not exceed**, in the precision of the buckets;
    zero if no bucket reaches the share, as without samples. -/
def quantile (l : Latency) (q : Float) : UInt64 :=
  let target := max 1 (q * l.samples.toFloat).ceil.toUInt64
  let stretches := l.buckets.toList.splitBy fun a b => stretch a.1 == stretch b.1
  match reachStretch target 0 stretches with
  | some lowest => highest lowest
  | none => 0

/-! ## 4. The number of samples -/

instance : TimeTally Latency := ⟨empty, record, add, fun _ => empty, samples, quantile⟩

end Latency

/-- What a sum up to the largest number is, in numbers without bound. -/
theorem toNat_saturatingAdd (a b : UInt64) :
    (saturatingAdd a b).toNat = min (a.toNat + b.toNat) 18446744073709551615 := by
  have ha := a.toNat_lt
  have hb := b.toNat_lt
  unfold saturatingAdd
  split
  · rename_i hover
    rw [UInt64.lt_iff_toNat_lt, UInt64.toNat_add] at hover
    show 18446744073709551615 = _
    omega
  · rename_i hroom
    rw [UInt64.lt_iff_toNat_lt, UInt64.toNat_add] at hroom
    rw [UInt64.toNat_add]
    omega

instance : LawfulTimeTally Latency where
  samples_empty := rfl
  samples_reset _ := rfl
  samples_record l nanos hroom := by
    have hroom' : l.samples.toNat + 1 < 18446744073709551616 := hroom
    exact (toNat_saturatingAdd l.samples 1).trans (Nat.min_eq_left (Nat.le_of_lt_succ hroom'))
  samples_add a b hroom := by
    have hroom' : a.samples.toNat + b.samples.toNat < 18446744073709551616 := hroom
    exact (toNat_saturatingAdd a.samples b.samples).trans
      (Nat.min_eq_left (Nat.le_of_lt_succ hroom'))

end FieldRecords
