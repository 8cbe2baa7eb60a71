import FieldRecords.Metric.Latency
import FieldRecords.Proofs.RecorderSums
import FieldRecords.Workload.RunResult

/-!
# Results add up

Every worker comes to a result of its own, and in the end the results are added up, two to a new one
or one into another, in whatever order the workers come to their end (`Adding`).

Both ways add alike (`RunResult.addInto_eq_add`), and metrics that only one of two results has are
kept, so that results without metrics are passed over. What a result shows of others
(`RunResult.Shows`) is numbers modulo 2^64 and the amounts of the recorders that are there. Two
results that are added show the parts of both (`RunResult.Shows.add`), so **what a sum shows is told
from the results one by one**, in any order and grouping (`results_add_up`).
-/

namespace FieldRecords

variable {T : Type} [TimeTally T]

/-! ## 1. Recorders -/

namespace Recorder

/-- The amounts that a recorder shows at least. -/
def amounts (r : Recorder T) : Amounts :=
  ⟨fun c => (r.counter c).toNat, fun h entry => (r.histogram h)[entry]?.map UInt64.toNat,
    fun t => (r.samples t).toNat⟩

theorem shows_amounts (r : Recorder T) : r.Shows r.amounts where
  counter_eq c := (UInt64.ofNat_toNat).symm
  getElem?_histogram_eq h entry := by
    show _ = ((r.histogram h)[entry]?.map UInt64.toNat).map UInt64.ofNat
    rw [Option.map_map]
    cases (r.histogram h)[entry]? with
    | none => rfl
    | some n => exact congrArg some (UInt64.ofNat_toNat).symm
  samples_eq t _ := rfl

/-- The amounts of some recorders together. -/
def allAmounts (rs : List (Recorder T)) : Amounts := (rs.map amounts).sum

theorem allAmounts_append (rs others : List (Recorder T)) :
    allAmounts (rs ++ others) = allAmounts rs + allAmounts others := by
  rw [allAmounts, List.map_append, List.sum_append, allAmounts, allAmounts]

theorem allAmounts_perm {rs others : List (Recorder T)} (h : rs.Perm others) :
    allAmounts rs = allAmounts others :=
  (h.map amounts).sum_eq

theorem counted_allAmounts (rs : List (Recorder T)) (c : Counter) :
    (allAmounts rs).counted c = (rs.map fun r => (r.counter c).toNat).sum := by
  rw [allAmounts, Amounts.counted_sum, List.map_map]
  rfl

theorem timed_allAmounts (rs : List (Recorder T)) (t : Timer) :
    (allAmounts rs).timed t = (rs.map fun r => (r.samples t).toNat).sum := by
  rw [allAmounts, Amounts.timed_sum, List.map_map]
  rfl

/-- A size has an entry if it has one in some recorder. -/
theorem filed_allAmounts_eq_none (rs : List (Recorder T)) (h : Histogram) (size : UInt16) :
    (allAmounts rs).filed h size = none ↔ ∀ r ∈ rs, (r.histogram h)[size]? = none := by
  rw [allAmounts, Amounts.filed_sum_eq_none, List.forall_mem_map]
  exact forall₂_congr fun r _ => Option.map_eq_none_iff

theorem getD_filed_allAmounts (rs : List (Recorder T)) (h : Histogram) (size : UInt16) :
    ((allAmounts rs).filed h size).getD 0 =
      (rs.map fun r => ((r.histogram h).getD size 0).toNat).sum := by
  have hone : ∀ r : Recorder T,
      ((r.histogram h)[size]?.map UInt64.toNat).getD 0 = ((r.histogram h).getD size 0).toNat := by
    intro r
    rw [Std.ExtTreeMap.getD_eq_getD_getElem?]
    cases (r.histogram h)[size]? <;> rfl
  rw [allAmounts, Amounts.getD_filed_sum, List.map_map]
  exact congrArg List.sum (List.map_congr_left fun r _ => hone r)

/-- Which sizes are entered, and how often they came, is told by the amounts. -/
theorem Shows.getElem?_eq_none_iff {r : Recorder T} {a : Amounts} (hr : r.Shows a) (h : Histogram)
    (size : UInt16) : (r.histogram h)[size]? = none ↔ a.filed h size = none := by
  rw [hr.getElem?_histogram_eq, Option.map_eq_none_iff]

theorem Shows.getD_histogram {r : Recorder T} {a : Amounts} (hr : r.Shows a) (h : Histogram)
    (size : UInt16) : (r.histogram h).getD size 0 = UInt64.ofNat ((a.filed h size).getD 0) := by
  rw [Std.ExtTreeMap.getD_eq_getD_getElem?, hr.getElem?_histogram_eq]
  cases a.filed h size <;> rfl

/-- Recorders that are added show the amounts of all of them. -/
theorem shows_foldr_add [LawfulTimeTally T] (rs : List (Recorder T)) :
    (rs.foldr add empty).Shows (allAmounts rs) := by
  induction rs with
  | nil => exact shows_empty
  | cons r rs ih => exact r.shows_amounts.add ih

end Recorder

/-! ## 2. Results -/

namespace RunResult

/-- **A result that is counted into another is added to it.** -/
theorem addInto_eq_add (a b : RunResult T) : a.addInto b = a.add b := by
  obtain ⟨throughput, notFound, metrics⟩ := a
  obtain ⟨otherThroughput, otherNotFound, otherMetrics⟩ := b
  cases metrics <;> cases otherMetrics <;> rfl

/-- Metrics that only one result has are kept. -/
theorem metrics_add (a b : RunResult T) :
    (a.add b).metrics = a.metrics.merge Recorder.add b.metrics := by
  unfold add
  cases a.metrics <;> cases b.metrics <;> rfl

/-- **A result shows these parts**: modulo 2^64 their numbers added up, and the amounts of the
    recorders that are there, if any is there. -/
structure Shows (r : RunResult T) (parts : List (RunResult T)) : Prop where
  throughput_eq : r.throughput = UInt64.ofNat (parts.map fun part => part.throughput.toNat).sum
  notFound_eq : r.notFound = UInt64.ofNat (parts.map fun part => part.notFound.toNat).sum
  metrics_eq_none : r.metrics = none ↔ ∀ part ∈ parts, part.metrics = none
  metrics_shows : ∀ m, r.metrics = some m →
    m.Shows (Recorder.allAmounts (parts.filterMap metrics))

/-- Without metrics there is no recorder among the parts. -/
theorem Shows.allAmounts_eq_zero {r : RunResult T} {parts : List (RunResult T)}
    (hr : r.Shows parts) (hnone : r.metrics = none) :
    Recorder.allAmounts (parts.filterMap metrics) = 0 := by
  rw [List.filterMap_eq_nil_iff.2 (hr.metrics_eq_none.1 hnone)]
  rfl

theorem shows_zero : (zero : RunResult T).Shows [] where
  throughput_eq := rfl
  notFound_eq := rfl
  metrics_eq_none := iff_of_true rfl fun part hpart => absurd hpart List.not_mem_nil
  metrics_shows m hm := by cases hm

theorem shows_self (r : RunResult T) : r.Shows [r] where
  throughput_eq := (UInt64.ofNat_toNat).symm
  notFound_eq := (UInt64.ofNat_toNat).symm
  metrics_eq_none := by simp only [List.mem_singleton, forall_eq]
  metrics_shows m hm := by
    rw [List.filterMap_cons_some hm, List.filterMap_nil, Recorder.allAmounts, List.map_singleton,
      List.sum_singleton]
    exact m.shows_amounts

/-- The order of the parts does not matter. -/
theorem Shows.perm {r : RunResult T} {parts others : List (RunResult T)} (hr : r.Shows parts)
    (h : parts.Perm others) : r.Shows others where
  throughput_eq := by rw [hr.throughput_eq, (h.map _).sum_eq]
  notFound_eq := by rw [hr.notFound_eq, (h.map _).sum_eq]
  metrics_eq_none := hr.metrics_eq_none.trans (forall_congr' fun _ => by rw [h.mem_iff])
  metrics_shows m hm := by
    rw [← Recorder.allAmounts_perm (h.filterMap metrics)]
    exact hr.metrics_shows m hm

/-- **Results that are added show the parts of both.** -/
theorem Shows.add [LawfulTimeTally T] {r s : RunResult T} {parts others : List (RunResult T)}
    (hr : r.Shows parts) (hs : s.Shows others) : (r.add s).Shows (parts ++ others) where
  throughput_eq := by
    rw [List.map_append, List.sum_append, UInt64.ofNat_add, ← hr.throughput_eq, ← hs.throughput_eq]
    rfl
  notFound_eq := by
    rw [List.map_append, List.sum_append, UInt64.ofNat_add, ← hr.notFound_eq, ← hs.notFound_eq]
    rfl
  metrics_eq_none := by
    rw [metrics_add, Option.merge_eq_none_iff, hr.metrics_eq_none, hs.metrics_eq_none,
      List.forall_mem_append]
  metrics_shows m hm := by
    rw [metrics_add] at hm
    rw [List.filterMap_append, Recorder.allAmounts_append]
    cases hfirst : r.metrics with
    | none =>
      rw [hfirst, Option.merge_none_left] at hm
      rw [hr.allAmounts_eq_zero hfirst, zero_add]
      exact hs.metrics_shows m hm
    | some first =>
      cases hsecond : s.metrics with
      | none =>
        rw [hfirst, hsecond, Option.merge_none_right] at hm
        rw [hs.allAmounts_eq_zero hsecond, add_zero]
        exact hr.metrics_shows m (hfirst.trans hm)
      | some second =>
        rw [hfirst, hsecond] at hm
        cases hm
        exact (hr.metrics_shows first hfirst).add (hs.metrics_shows second hsecond)

end RunResult

/-! ## 3. In any order and grouping -/

/-- **How results are added up**: from nothing or from one of them, two to a new one or one into
    another. -/
inductive Adding (T : Type) where
  | nothing
  | one (r : RunResult T)
  | plus (a b : Adding T)
  | into (a b : Adding T)

namespace Adding

/-- What comes out. -/
def result : Adding T → RunResult T
  | nothing => .zero
  | one r => r
  | plus a b => a.result.add b.result
  | into a b => a.result.addInto b.result

/-- The results that are added up, each as often as it is. -/
def parts : Adding T → List (RunResult T)
  | nothing => []
  | one r => [r]
  | plus a b => a.parts ++ b.parts
  | into a b => a.parts ++ b.parts

/-- **Only the parts matter**, not how they are added up. -/
theorem shows_parts [LawfulTimeTally T] (a : Adding T) : a.result.Shows a.parts := by
  induction a with
  | nothing => exact RunResult.shows_zero
  | one r => exact r.shows_self
  | plus a b iha ihb => exact iha.add ihb
  | into a b iha ihb =>
    rw [result, RunResult.addInto_eq_add]
    exact iha.add ihb

end Adding

/-- **Results add up in any order and grouping**, with either operator, from nothing or from one of
    them. The two numbers are the sums modulo 2^64. The metrics are missing just if they are missing
    in every result; otherwise they show the sum of the recorders that are there, in any one order:

    * modulo 2^64, each counter shows the sum of the counters, and each histogram the sum of the
      entries of a size, which is entered if it is in some recorder;
    * each timer shows how many samples there are, as long as there are fewer than 2^64. -/
theorem results_add_up [LawfulTimeTally T] (a : Adding T) {rs : List (RunResult T)}
    (h : a.parts.Perm rs) :
    let sum := a.result
    let present := rs.filterMap RunResult.metrics
    let whole : Recorder T := present.foldr Recorder.add Recorder.empty
    sum.throughput = UInt64.ofNat (rs.map fun r => r.throughput.toNat).sum ∧
    sum.notFound = UInt64.ofNat (rs.map fun r => r.notFound.toNat).sum ∧
    (sum.metrics = none ↔ ∀ r ∈ rs, r.metrics = none) ∧
    ∀ m, sum.metrics = some m →
      (∀ c, m.counter c = whole.counter c ∧
        m.counter c = UInt64.ofNat (present.map fun r => (r.counter c).toNat).sum) ∧
      (∀ h, m.histogram h = whole.histogram h ∧ ∀ size,
        ((m.histogram h)[size]? = none ↔ ∀ r ∈ present, (r.histogram h)[size]? = none) ∧
        (m.histogram h).getD size 0 =
          UInt64.ofNat (present.map fun r => ((r.histogram h).getD size 0).toNat).sum) ∧
      ∀ t, (present.map fun r => (r.samples t).toNat).sum < 18446744073709551616 →
        m.samples t = whole.samples t ∧
        (m.samples t).toNat = (present.map fun r => (r.samples t).toNat).sum := by
  intro sum present whole
  have hsum : sum.Shows rs := a.shows_parts.perm h
  have hwhole : whole.Shows (Recorder.allAmounts present) := Recorder.shows_foldr_add present
  refine ⟨hsum.throughput_eq, hsum.notFound_eq, hsum.metrics_eq_none, fun m hm => ?_⟩
  have hshown : m.Shows (Recorder.allAmounts present) := hsum.metrics_shows m hm
  refine ⟨fun c => ⟨?_, ?_⟩, fun h => ⟨hshown.histogram_unique hwhole h, fun size => ⟨?_, ?_⟩⟩,
    fun t hroom => ?_⟩
  · rw [hshown.counter_eq, hwhole.counter_eq]
  · rw [hshown.counter_eq, Recorder.counted_allAmounts]
  · rw [hshown.getElem?_eq_none_iff, Recorder.filed_allAmounts_eq_none]
  · rw [hshown.getD_histogram, Recorder.getD_filed_allAmounts]
  · rw [← Recorder.timed_allAmounts] at hroom ⊢
    exact ⟨hshown.samples_unique hwhole hroom, hshown.samples_eq t hroom⟩

/-- Three results, the second without metrics, with numbers that go beyond 2^64 together: the last
    is counted into the second, and the first is added to both. -/
theorem results_of_three_workers :
    let counted : Recorder Latency :=
      (Recorder.empty.record (.count .merge 18446744073709551615)).record (.time .merge 5)
    let filed : Recorder Latency :=
      ((Recorder.empty.record (.count .merge 3)).record (.hit .mergedFieldCount 5)).record
        (.time .merge 9)
    let first : RunResult Latency := ⟨18446744073709551615, 1, some counted⟩
    let second : RunResult Latency := ⟨2, 2, none⟩
    let third : RunResult Latency := ⟨3, 4, some filed⟩
    let a : Adding Latency :=
      .plus (.one first) (.into (.plus .nothing (.one second)) (.one third))
    let rs := [third, first, second]
    a.parts.Perm rs ∧ a.result.throughput = 4 ∧ a.result.notFound = 7 ∧
      ∃ m, a.result.metrics = some m ∧ m.counter .merge = 2 ∧
        (m.histogram .mergedFieldCount).getD 5 0 = 1 ∧ (m.samples .merge).toNat = 2 := by
  intro counted filed first second third a rs
  have hperm : ([first, second] ++ [third]).Perm ([third] ++ [first, second]) :=
    List.perm_append_comm
  obtain ⟨hthroughput, hnotFound, hmissing, hmetrics⟩ := results_add_up a hperm
  obtain ⟨m, hm⟩ : ∃ m, a.result.metrics = some m := by
    refine Option.ne_none_iff_exists'.1 fun hnone => ?_
    have hthird : third.metrics = none := hmissing.1 hnone third List.mem_cons_self
    cases hthird
  obtain ⟨hcounter, hsize, htime⟩ := hmetrics m hm
  refine ⟨hperm, hthroughput.trans (by decide), hnotFound.trans (by decide), m, hm, ?_, ?_, ?_⟩
  · exact (hcounter .merge).2.trans (by decide)
  · exact ((hsize .mergedFieldCount).2 5).2.trans (by decide)
  · exact (htime .merge (by decide)).2.trans (by decide)

end FieldRecords
