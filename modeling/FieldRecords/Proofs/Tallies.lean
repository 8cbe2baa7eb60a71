import FieldRecords.Metric.Recorder

/-!
# What a recorder tallies

A counter shows how often it was counted, modulo 2^64, however the counts are spread over the events
(`Recorder.counter_recordAll`) and over the recorders that are added up
(`Recorder.counter_foldl_add`). A histogram has as many sizes in it, and a timer as many samples, as
were reported (`Recorder.total_histogram_recordAll`, `Recorder.samples_recordAll`), as long as they
can be numbered. **Counting touches no histogram and no timer** (`Recorder.Counts.record`), so
recorders that were only counted in add up to one without sizes and times
(`Recorder.Counts.foldl_add`).
-/

namespace FieldRecords

namespace Event

/-- How much an event adds to a counter. -/
def amount (c : Counter) : Event → Nat
  | count counter n => if counter = c then n.toNat else 0
  | _ => 0

/-- How much events add to a counter together. -/
def total (c : Counter) : List Event → Nat
  | [] => 0
  | event :: events => event.amount c + total c events

theorem total_append (c : Counter) (before after : List Event) :
    total c (before ++ after) = total c before + total c after := by
  induction before with
  | nil => exact (Nat.zero_add _).symm
  | cons event before ih => rw [List.cons_append, total, total, ih, Nat.add_assoc]

/-- The order of events does not matter. -/
theorem total_perm (c : Counter) {events others : List Event} (h : events.Perm others) :
    total c events = total c others := by
  induction h with
  | nil => rfl
  | cons event h ih => rw [total, total, ih]
  | swap first second events =>
    simp only [total]
    omega
  | trans h₁ h₂ ih₁ ih₂ => exact ih₁.trans ih₂

theorem total_replicate (c : Counter) (n : Nat) (event : Event) :
    total c (List.replicate n event) = n * event.amount c := by
  induction n with
  | zero => exact (Nat.zero_mul _).symm
  | succ n ih => rw [List.replicate_succ, total, ih, Nat.succ_mul, Nat.add_comm]

/-- The same events for every item of a list. -/
theorem total_flatMap {α : Type} (c : Counter) (as : List α) (events : List Event) :
    total c (as.flatMap fun _ => events) = as.length * total c events := by
  induction as with
  | nil => rw [List.flatMap_nil, List.length_nil, total, Nat.zero_mul]
  | cons a as ih =>
    rw [List.flatMap_cons, total_append, ih, List.length_cons, Nat.succ_mul, Nat.add_comm]

/-- The event files a size under this histogram. -/
def hitsIn (h : Histogram) : Event → Bool
  | hit histogram _ => histogram = h
  | _ => false

/-- The event is a sample of this timer. -/
def timesIn (t : Timer) : Event → Bool
  | time timer _ => timer = t
  | _ => false

theorem eq_hit_of_hitsIn {event : Event} {h : Histogram} (hevent : event.hitsIn h = true) :
    ∃ size, event = .hit h size := by
  cases event with
  | count counter n => cases hevent
  | hit histogram size =>
    cases of_decide_eq_true hevent
    exact ⟨size, rfl⟩
  | time timer nanos => cases hevent

theorem eq_time_of_timesIn {event : Event} {t : Timer} (hevent : event.timesIn t = true) :
    ∃ nanos, event = .time t nanos := by
  cases event with
  | count counter n => cases hevent
  | hit histogram size => cases hevent
  | time timer nanos =>
    cases of_decide_eq_true hevent
    exact ⟨nanos, rfl⟩

/-- How many sizes events file under a histogram. -/
def hits (h : Histogram) (events : List Event) : Nat := events.countP (hitsIn h)

/-- How many samples of a timer there are among events. -/
def samples (t : Timer) (events : List Event) : Nat := events.countP (timesIn t)

theorem hits_append (h : Histogram) (before after : List Event) :
    hits h (before ++ after) = hits h before + hits h after :=
  List.countP_append

theorem samples_append (t : Timer) (before after : List Event) :
    samples t (before ++ after) = samples t before + samples t after :=
  List.countP_append

theorem hits_perm (h : Histogram) {events others : List Event} (hperm : events.Perm others) :
    hits h events = hits h others :=
  hperm.countP_eq (hitsIn h)

theorem samples_perm (t : Timer) {events others : List Event} (hperm : events.Perm others) :
    samples t events = samples t others :=
  hperm.countP_eq (timesIn t)

end Event

/-! ## 1. Totals -/

namespace SizeTally

/-- The occurrences of some sizes together. -/
def sum (entries : List (UInt16 × UInt64)) : Nat :=
  entries.foldr (fun entry rest => entry.2.toNat + rest) 0

/-- **The occurrences of all sizes together.** -/
def total (t : SizeTally) : Nat := sum t.toList

theorem sum_perm {a b : List (UInt16 × UInt64)} (h : a.Perm b) : sum a = sum b :=
  h.foldr_eq' (fun x _ y _ rest => Nat.add_left_comm y.2.toNat x.2.toNat rest) 0

theorem nodup_toList (t : SizeTally) : t.toList.Nodup := by
  refine Std.ExtTreeMap.distinct_keys_toList.imp fun {a b} hne heq => ?_
  rw [heq] at hne
  exact hne Std.ReflCmp.compare_self

/-- A size that is entered stands beside the entries of the others. -/
theorem toList_insert_perm (t : SizeTally) (size : UInt16) (n : UInt64) :
    (Std.ExtTreeMap.insert t size n).toList.Perm ((size, n) :: (t.erase size).toList) := by
  have hfresh : (size, n) ∉ (t.erase size).toList := by
    rw [Std.ExtTreeMap.mem_toList_iff_getElem?_eq_some, Std.ExtTreeMap.getElem?_erase_self]
    exact nofun
  refine (List.perm_ext_iff_of_nodup (nodup_toList _)
    (List.nodup_cons.2 ⟨hfresh, nodup_toList _⟩)).2 fun (other, m) => ?_
  rw [List.mem_cons, Std.ExtTreeMap.mem_toList_iff_getElem?_eq_some,
    Std.ExtTreeMap.mem_toList_iff_getElem?_eq_some, Std.ExtTreeMap.getElem?_insert,
    Std.ExtTreeMap.getElem?_erase]
  grind

theorem total_insert (t : SizeTally) (size : UInt16) (n : UInt64) :
    total (Std.ExtTreeMap.insert t size n) = n.toNat + total (t.erase size) :=
  sum_perm (toList_insert_perm t size n)

/-- What is tallied is the occurrences of one size and those of the others. -/
theorem total_eq (t : SizeTally) (size : UInt16) :
    total t = (t.getD size 0).toNat + total (t.erase size) := by
  cases hentry : t[size]? with
  | none =>
    have hself : t.erase size = t := by
      refine Std.ExtTreeMap.ext_getElem? fun other => ?_
      grind
    rw [hself, Std.ExtTreeMap.getD_eq_getD_getElem?, hentry]
    exact (Nat.zero_add _).symm
  | some n =>
    have hself : Std.ExtTreeMap.insert t size n = t := by
      refine Std.ExtTreeMap.ext_getElem? fun other => ?_
      grind
    have htotal := total_insert t size n
    rw [hself] at htotal
    rw [Std.ExtTreeMap.getD_eq_getD_getElem?, hentry]
    exact htotal

/-- **One occurrence more is tallied**, as long as there are fewer than 2^64 of them. -/
theorem total_hit (t : SizeTally) (size : UInt64) (h : total t + 1 < 18446744073709551616) :
    total (t.hit size) = total t + 1 := by
  have htotal := total_eq t (entry size)
  have hmore : (t.getD (entry size) 0 + 1).toNat = (t.getD (entry size) 0).toNat + 1 := by
    have hroom : (t.getD (entry size) 0).toNat + 1 < 18446744073709551616 := by omega
    exact (UInt64.toNat_add _ _).trans (Nat.mod_eq_of_lt hroom)
  rw [hit, addTo, total_insert, hmore, htotal]
  omega

end SizeTally

namespace Recorder

variable {T : Type} [TimeTally T]

/-! ## 2. Counters -/

theorem counter_index_injective {a b : Counter} (h : a.index = b.index) : a = b := by
  cases a <;> cases b <;> first | rfl | cases h

theorem counter_record (r : Recorder T) (event : Event) (c : Counter) :
    (r.record event).counter c = r.counter c + UInt64.ofNat (event.amount c) := by
  cases event with
  | count counter n =>
    by_cases h : counter = c
    · simp [record, increment, Recorder.counter, Event.amount, h]
    · have hindex : (counter.index : Nat) ≠ c.index := fun e =>
        h (counter_index_injective (Fin.ext e))
      simp [record, increment, Recorder.counter, Event.amount, h, hindex]
  | hit histogram key => simp [record, Recorder.hit, Recorder.counter, Event.amount]
  | time timer nanos => simp [record, addTime, Recorder.counter, Event.amount]

/-- **A counter shows what the events add to it.** -/
theorem counter_recordAll (r : Recorder T) (events : List Event) (c : Counter) :
    (r.recordAll events).counter c = r.counter c + UInt64.ofNat (Event.total c events) := by
  induction events generalizing r with
  | nil => exact (UInt64.add_zero _).symm
  | cons event events ih =>
    rw [recordAll_cons, ih, counter_record, Event.total, UInt64.ofNat_add, UInt64.add_assoc]

/-- What adds nothing to a counter leaves it as it was. -/
theorem counter_recordAll_of_total (r : Recorder T) {events : List Event} {c : Counter}
    (hnone : Event.total c events = 0) : (r.recordAll events).counter c = r.counter c := by
  rw [counter_recordAll, hnone]
  exact UInt64.add_zero _

theorem counter_empty (c : Counter) : (empty : Recorder T).counter c = 0 := by
  simp [empty, Recorder.counter]

theorem counter_recordAll_empty (events : List Event) (c : Counter) :
    ((empty : Recorder T).recordAll events).counter c = UInt64.ofNat (Event.total c events) := by
  rw [counter_recordAll, counter_empty, UInt64.zero_add]

theorem counter_add (a b : Recorder T) (c : Counter) :
    (a.add b).counter c = a.counter c + b.counter c := by
  simp [add, Recorder.counter]

/-- **Recorders that show the same add up to a multiple of it.** -/
theorem counter_foldl_add {c : Counter} {n : Nat} {rs : List (Recorder T)}
    (h : ∀ r ∈ rs, r.counter c = UInt64.ofNat n) (sum : Recorder T) :
    (rs.foldl add sum).counter c = sum.counter c + UInt64.ofNat (rs.length * n) := by
  induction rs generalizing sum with
  | nil =>
    rw [List.length_nil, Nat.zero_mul]
    exact (UInt64.add_zero _).symm
  | cons r rs ih =>
    have hrest : ∀ s ∈ rs, s.counter c = UInt64.ofNat n := fun s hs =>
      h s (List.mem_cons_of_mem _ hs)
    rw [List.foldl_cons, ih hrest, counter_add, h r List.mem_cons_self, UInt64.add_assoc,
      ← UInt64.ofNat_add, List.length_cons, Nat.succ_mul, Nat.add_comm n]

/-! ## 3. Sizes and samples -/

theorem histogram_index_injective {a b : Histogram} (h : a.index = b.index) : a = b := by
  cases a <;> cases b <;> first | rfl | cases h

theorem timer_index_injective {a b : Timer} (h : a.index = b.index) : a = b := by
  cases a <;> cases b <;> first | rfl | cases h

/-- What files no size under a histogram leaves it as it was. -/
theorem histogram_record (r : Recorder T) {event : Event} {h : Histogram}
    (hevent : event.hitsIn h = false) : (r.record event).histogram h = r.histogram h := by
  cases event with
  | count counter n => rfl
  | hit histogram size =>
    have hindex : (histogram.index : Nat) ≠ h.index := fun e =>
      of_decide_eq_false hevent (histogram_index_injective (Fin.ext e))
    simp [record, Recorder.hit, Recorder.histogram, hindex]
  | time timer nanos => rfl

/-- So do events of which none does. -/
theorem histogram_recordAll_of_hits (r : Recorder T) {events : List Event} {h : Histogram}
    (hnone : Event.hits h events = 0) : (r.recordAll events).histogram h = r.histogram h := by
  induction events generalizing r with
  | nil => rfl
  | cons event events ih =>
    have hall := List.countP_eq_zero.1 hnone
    have hevent : event.hitsIn h = false := Bool.eq_false_iff.2 (hall event List.mem_cons_self)
    have hrest : Event.hits h events = 0 :=
      List.countP_eq_zero.2 fun other hother => hall other (List.mem_cons_of_mem _ hother)
    rw [recordAll_cons, ih _ hrest, histogram_record r hevent]

/-- What is no sample of a timer leaves it as it was. -/
theorem timer_record (r : Recorder T) {event : Event} {t : Timer}
    (hevent : event.timesIn t = false) : (r.record event).timer t = r.timer t := by
  cases event with
  | count counter n => rfl
  | hit histogram size => rfl
  | time timer nanos =>
    have hindex : (timer.index : Nat) ≠ t.index := fun e =>
      of_decide_eq_false hevent (timer_index_injective (Fin.ext e))
    simp [record, addTime, Recorder.timer, hindex]

theorem histogram_record_hit (r : Recorder T) (h : Histogram) (size : UInt64) :
    (r.record (.hit h size)).histogram h = (r.histogram h).hit size := by
  simp [record, Recorder.hit, Recorder.histogram]

theorem timer_record_time (r : Recorder T) (t : Timer) (nanos : Nat) :
    (r.record (.time t nanos)).timer t = TimeTally.record (r.timer t) (clamp nanos) := by
  simp [record, addTime, Recorder.timer]

/-- A size that is filed is one more. -/
theorem total_histogram_record (r : Recorder T) {event : Event} {h : Histogram}
    (hevent : event.hitsIn h = true) (hroom : (r.histogram h).total + 1 < 18446744073709551616) :
    ((r.record event).histogram h).total = (r.histogram h).total + 1 := by
  obtain ⟨size, rfl⟩ := Event.eq_hit_of_hitsIn hevent
  rw [histogram_record_hit, SizeTally.total_hit _ _ hroom]

/-- A sample that is taken is one more. -/
theorem samples_record [LawfulTimeTally T] (r : Recorder T) {event : Event} {t : Timer}
    (hevent : event.timesIn t = true) (hroom : (r.samples t).toNat + 1 < 18446744073709551616) :
    ((r.record event).samples t).toNat = (r.samples t).toNat + 1 := by
  obtain ⟨nanos, rfl⟩ := Event.eq_time_of_timesIn hevent
  rw [samples, timer_record_time]
  exact LawfulTimeTally.samples_record _ _ hroom

/-- What some events raise by one, and the others leave as it was, is raised by the number of those
    events, as long as there is room for them. -/
theorem recordAll_eq_add_countP (measure : Recorder T → Nat) {p : Event → Bool}
    (hkept : ∀ r event, p event = false → measure (Recorder.record r event) = measure r)
    (hraised : ∀ r event, p event = true → measure r + 1 < 18446744073709551616 →
      measure (Recorder.record r event) = measure r + 1)
    (r : Recorder T) {events : List Event}
    (hroom : measure r + events.countP p < 18446744073709551616) :
    measure (r.recordAll events) = measure r + events.countP p := by
  induction events generalizing r with
  | nil => rfl
  | cons event events ih =>
    rw [List.countP_cons] at hroom ⊢
    rw [recordAll_cons]
    cases hevent : p event with
    | false =>
      have hsame := hkept r event hevent
      rw [hevent] at hroom
      rw [ih (r.record event) (by rw [hsame]; exact hroom), hsame]
      rfl
    | true =>
      rw [hevent, if_pos rfl] at hroom
      have hone := hraised r event hevent (by omega)
      rw [ih (r.record event) (by omega), hone, if_pos rfl]
      omega

/-- **The sizes of a histogram together are the sizes that were filed**, as long as there are fewer
    than 2^64 of them. -/
theorem total_histogram_recordAll (r : Recorder T) (h : Histogram) {events : List Event}
    (hroom : (r.histogram h).total + Event.hits h events < 18446744073709551616) :
    ((r.recordAll events).histogram h).total = (r.histogram h).total + Event.hits h events :=
  recordAll_eq_add_countP (fun r => (r.histogram h).total)
    (fun r _ hevent => congrArg SizeTally.total (histogram_record r hevent))
    (fun r _ => total_histogram_record r) r hroom

/-- **A timer has as many samples as were taken**, as long as there are fewer than 2^64 of them. -/
theorem samples_recordAll [LawfulTimeTally T] (r : Recorder T) (t : Timer) {events : List Event}
    (hroom : (r.samples t).toNat + Event.samples t events < 18446744073709551616) :
    ((r.recordAll events).samples t).toNat = (r.samples t).toNat + Event.samples t events :=
  recordAll_eq_add_countP (fun r => (r.samples t).toNat)
    (fun r _ hevent => congrArg (fun l => (TimeTally.samples l).toNat) (timer_record r hevent))
    (fun r _ => samples_record r) r hroom

theorem histogram_add (a b : Recorder T) (h : Histogram) :
    (a.add b).histogram h = (a.histogram h).add (b.histogram h) := by
  simp [add, Recorder.histogram]

theorem timer_add (a b : Recorder T) (t : Timer) :
    (a.add b).timer t = TimeTally.add (a.timer t) (b.timer t) := by
  simp [add, Recorder.timer]

/-! ## 4. Counts alone -/

/-- **Nothing but counts was reported**: no size was filed and no time taken. -/
structure Counts (r : Recorder T) : Prop where
  histogram_eq : ∀ h, r.histogram h = ∅
  timer_untouched : ∀ t, TimeTally.Untouched (r.timer t)

theorem timer_empty (t : Timer) : (empty : Recorder T).timer t = TimeTally.empty := by
  simp [empty, Recorder.timer]

theorem counts_empty : (empty : Recorder T).Counts where
  histogram_eq h := by simp [empty, Recorder.histogram]
  timer_untouched t := by
    rw [timer_empty]
    exact .empty

/-- Then no timer has a sample. -/
theorem Counts.samples_eq [LawfulTimeTally T] {r : Recorder T} (h : r.Counts) (t : Timer) :
    (r.samples t).toNat = 0 :=
  (h.timer_untouched t).samples_eq

theorem Counts.record {r : Recorder T} (h : r.Counts) (c : Counter) (n : UInt64) :
    (r.record (.count c n)).Counts :=
  ⟨h.histogram_eq, h.timer_untouched⟩

theorem Counts.recordAll {r : Recorder T} (h : r.Counts) {events : List Event}
    (hevents : ∀ event ∈ events, ∃ c n, event = .count c n) : (r.recordAll events).Counts := by
  induction events generalizing r with
  | nil => exact h
  | cons event events ih =>
    obtain ⟨c, n, rfl⟩ := hevents event List.mem_cons_self
    exact ih (h.record c n) fun other hother => hevents other (List.mem_cons_of_mem _ hother)

theorem Counts.add {a b : Recorder T} (ha : a.Counts) (hb : b.Counts) : (a.add b).Counts where
  histogram_eq h := by
    rw [histogram_add, ha.histogram_eq, hb.histogram_eq]
    rfl
  timer_untouched t := by
    rw [timer_add]
    exact (ha.timer_untouched t).add (hb.timer_untouched t)

/-- Recorders without sizes and times add up to one without them. -/
theorem Counts.foldl_add {sum : Recorder T} (hsum : sum.Counts) {rs : List (Recorder T)}
    (h : ∀ r ∈ rs, r.Counts) : (rs.foldl Recorder.add sum).Counts := by
  induction rs generalizing sum with
  | nil => exact hsum
  | cons r rs ih =>
    exact ih (hsum.add (h r List.mem_cons_self)) fun s hs => h s (List.mem_cons_of_mem _ hs)

end Recorder

end FieldRecords
