import Mathlib.Algebra.BigOperators.Group.List.Basic
import Mathlib.Algebra.GroupWithZero.Nat
import FieldRecords.Proofs.Tallies

/-!
# Recorders add up

What was reported is told by amounts without bound (`Amounts`): how often each thing was counted,
how often a size was filed under an entry, how many samples a timer has. Amounts are added part by
part, so they can be added in any order and grouping, while a tally of times need not care for
either.

**A recorder shows amounts** (`Recorder.Shows`) as far as its words reach: counters and histograms
modulo 2^64, and numbers of samples below it. Two recorders that are added show the amounts of both
(`Recorder.Shows.add`), and an event that is recorded is an amount more (`Recorder.Shows.record`).
So what a recorder shows is counted among the events (`Recorder.shows_recordAll`).
-/

namespace FieldRecords

/-! ## 1. Tallies -/

/-- How much is entered under each key. -/
abbrev Tally (κ : Type) [Ord κ] : Type := Std.ExtTreeMap κ UInt64 compare

namespace Tally

variable {κ : Type} [Ord κ] [Std.TransOrd κ] {plus : UInt64 → UInt64 → UInt64}

/-- An amount added to what is entered under a key. -/
def enter (plus : UInt64 → UInt64 → UInt64) (t : Tally κ) (key : κ) (n : UInt64) : Tally κ :=
  t.insert key (plus (t.getD key 0) n)

/-- All entries of one tally added to another. -/
def join (plus : UInt64 → UInt64 → UInt64) (a b : Tally κ) : Tally κ := b.foldl (enter plus) a

theorem getElem?_enter_self (hzero : ∀ n, plus 0 n = n) (t : Tally κ) (key : κ) (n : UInt64) :
    (enter plus t key n)[key]? = t[key]?.merge plus (some n) := by
  rw [enter, Std.ExtTreeMap.getElem?_insert_self, Std.ExtTreeMap.getD_eq_getD_getElem?]
  cases t[key]? with
  | none => exact congrArg some (hzero n)
  | some m => rfl

variable [Std.LawfulEqOrd κ]

theorem getElem?_enter_of_ne (t : Tally κ) {key other : κ} (h : key ≠ other) (n : UInt64) :
    (enter plus t key n)[other]? = t[other]? := by
  rw [enter, Std.ExtTreeMap.getElem?_insert, if_neg]
  exact fun hsame => h (Std.LawfulEqCmp.eq_of_compare hsame)

/-- Amounts under distinct keys, entered one after the other: a key among them is given its amount,
    and every other key keeps what is entered there. -/
theorem getElem?_foldl_enter (hzero : ∀ n, plus 0 n = n) {entries : List (κ × UInt64)}
    (hkeys : (entries.map Prod.fst).Nodup) (t : Tally κ) {key : κ} {found : Option UInt64}
    (hfound : ∀ n, (key, n) ∈ entries ↔ found = some n) :
    (entries.foldl (fun t entry => enter plus t entry.1 entry.2) t)[key]? =
      t[key]?.merge plus found := by
  induction entries generalizing t found with
  | nil =>
    have hnone : found = none :=
      Option.eq_none_iff_forall_ne_some.2 fun n hn => List.not_mem_nil ((hfound n).2 hn)
    rw [hnone, Option.merge_none_right]
    rfl
  | cons entry entries ih =>
    obtain ⟨hfresh, hrest⟩ := List.nodup_cons.1 hkeys
    rw [List.foldl_cons]
    by_cases hkey : entry.1 = key
    · obtain rfl : found = some entry.2 := (hfound entry.2).1 (hkey ▸ List.mem_cons_self)
      have hgone : ∀ n, (key, n) ∈ entries ↔ none = some n := by
        intro n
        refine ⟨fun hn => absurd (List.mem_map_of_mem hn) (hkey ▸ hfresh), nofun⟩
      rw [ih hrest _ hgone, hkey, getElem?_enter_self hzero, Option.merge_none_right]
    · have hsame : ∀ n, (key, n) ∈ entries ↔ found = some n := by
        intro n
        rw [← hfound n, List.mem_cons]
        refine ⟨.inr, fun hn => hn.resolve_left fun he => hkey (congrArg Prod.fst he).symm⟩
      rw [ih hrest _ hsame, getElem?_enter_of_ne t hkey]

/-- **Two tallies are added entry by entry**; an entry that only one of them has is kept. -/
theorem getElem?_join (hzero : ∀ n, plus 0 n = n) (a b : Tally κ) (key : κ) :
    (join plus a b)[key]? = a[key]?.merge plus b[key]? := by
  have hkeys : (b.toList.map Prod.fst).Nodup := by
    refine List.pairwise_map.2 (Std.ExtTreeMap.distinct_keys_toList.imp fun hne hsame => hne ?_)
    rw [hsame]
    exact Std.ReflCmp.compare_self
  rw [join, Std.ExtTreeMap.foldl_eq_foldl_toList]
  exact getElem?_foldl_enter hzero hkeys a fun n =>
    Std.ExtTreeMap.mem_toList_iff_getElem?_eq_some

end Tally

/-! ## 2. Sizes -/

namespace SizeTally

theorem add_eq_join (a b : SizeTally) : a.add b = Tally.join (· + ·) a b := rfl

theorem hit_eq_enter (t : SizeTally) (size : UInt64) :
    t.hit size = Tally.enter (· + ·) t (entry size) 1 := rfl

/-- A size is filed under itself, and from 65535 on all sizes are filed together. -/
theorem toNat_entry (size : UInt64) : (entry size).toNat = min size.toNat 65535 := by
  have hmin : (min size 65535).toNat = min size.toNat 65535 := by
    show (if size ≤ 65535 then size else 65535).toNat = _
    split
    · rename_i hsmall
      exact (Nat.min_eq_left (UInt64.le_iff_toNat_le.1 hsmall)).symm
    · rename_i hlarge
      have hover : 65535 ≤ size.toNat :=
        Nat.le_of_not_le fun h => hlarge (UInt64.le_iff_toNat_le.2 h)
      exact (Nat.min_eq_right hover).symm
  rw [entry, UInt64.toNat_toUInt16, hmin]
  omega

/-- So one occurrence more is one more in that entry. -/
theorem hit_toUInt64 (t : SizeTally) {size : Nat} (h : size < 18446744073709551616) :
    t.hit size.toUInt64 = t.addTo (min size 65535).toUInt16 1 := by
  have hentry : entry size.toUInt64 = (min size 65535).toUInt16 := by
    rw [← UInt16.toNat_inj, toNat_entry]
    show min (UInt64.ofNat size).toNat 65535 = (UInt16.ofNat (min size 65535)).toNat
    rw [UInt64.toNat_ofNat_of_lt' h, UInt16.toNat_ofNat_of_lt' (by show _ < 65536; omega)]
  rw [hit, hentry]

end SizeTally

/-! ## 3. Amounts -/

/-- **What was reported**, in numbers without bound. -/
@[ext] structure Amounts where
  counted : Counter → Nat
  /-- How often a size was filed under an entry, if there is an entry. -/
  filed : Histogram → UInt16 → Option Nat
  timed : Timer → Nat

namespace Amounts

instance : Zero Amounts := ⟨⟨fun _ => 0, fun _ _ => none, fun _ => 0⟩⟩

instance : Add Amounts where
  add a b :=
    ⟨fun c => a.counted c + b.counted c,
      fun h entry => (a.filed h entry).merge (· + ·) (b.filed h entry),
      fun t => a.timed t + b.timed t⟩

@[simp] theorem counted_zero (c : Counter) : (0 : Amounts).counted c = 0 := rfl

@[simp] theorem filed_zero (h : Histogram) (entry : UInt16) : (0 : Amounts).filed h entry = none :=
  rfl

@[simp] theorem timed_zero (t : Timer) : (0 : Amounts).timed t = 0 := rfl

@[simp] theorem counted_add (a b : Amounts) (c : Counter) :
    (a + b).counted c = a.counted c + b.counted c := rfl

@[simp] theorem filed_add (a b : Amounts) (h : Histogram) (entry : UInt16) :
    (a + b).filed h entry = (a.filed h entry).merge (· + ·) (b.filed h entry) := rfl

@[simp] theorem timed_add (a b : Amounts) (t : Timer) :
    (a + b).timed t = a.timed t + b.timed t := rfl

/-- Amounts are added part by part. -/
instance : AddCommMonoid Amounts where
  add_assoc a b c := by
    ext1
    · funext counter
      exact Nat.add_assoc _ _ _
    · funext h entry
      exact (inferInstance : Std.Associative (Option.merge (α := Nat) (· + ·))).assoc _ _ _
    · funext t
      exact Nat.add_assoc _ _ _
  zero_add a := by
    ext1
    · funext counter
      exact Nat.zero_add _
    · funext h entry
      exact Option.merge_none_left
    · funext t
      exact Nat.zero_add _
  add_zero a := by
    ext1
    · rfl
    · funext h entry
      exact Option.merge_none_right
    · rfl
  add_comm a b := by
    ext1
    · funext counter
      exact Nat.add_comm _ _
    · funext h entry
      exact (inferInstance : Std.Commutative (Option.merge (α := Nat) (· + ·))).comm _ _
    · funext t
      exact Nat.add_comm _ _
  nsmul := nsmulRec

theorem counted_sum (as : List Amounts) (c : Counter) :
    as.sum.counted c = (as.map fun a => a.counted c).sum := by
  induction as with
  | nil => rfl
  | cons a as ih => rw [List.sum_cons, counted_add, ih, List.map_cons, List.sum_cons]

theorem timed_sum (as : List Amounts) (t : Timer) :
    as.sum.timed t = (as.map fun a => a.timed t).sum := by
  induction as with
  | nil => rfl
  | cons a as ih => rw [List.sum_cons, timed_add, ih, List.map_cons, List.sum_cons]

/-- A sum has an entry if one of its parts has it. -/
theorem filed_sum_eq_none (as : List Amounts) (h : Histogram) (entry : UInt16) :
    as.sum.filed h entry = none ↔ ∀ a ∈ as, a.filed h entry = none := by
  induction as with
  | nil => exact iff_of_true rfl fun a ha => absurd ha List.not_mem_nil
  | cons a as ih =>
    rw [List.sum_cons, filed_add, List.forall_mem_cons, ← ih]
    exact Option.merge_eq_none_iff

/-- How often a size was filed, no entry counting as zero. -/
theorem getD_filed_sum (as : List Amounts) (h : Histogram) (entry : UInt16) :
    (as.sum.filed h entry).getD 0 = (as.map fun a => (a.filed h entry).getD 0).sum := by
  induction as with
  | nil => rfl
  | cons a as ih =>
    rw [List.sum_cons, filed_add, List.map_cons, List.sum_cons, ← ih]
    cases a.filed h entry with
    | none => cases as.sum.filed h entry with
      | none => rfl
      | some n => exact (Nat.zero_add n).symm
    | some m => cases as.sum.filed h entry <;> rfl

end Amounts

/-! ## 4. Amounts of events -/

namespace Event

/-- The event files a size under this entry of a histogram: sizes from 65535 on share the last. -/
def filesAt (h : Histogram) (entry : UInt16) : Event → Bool
  | hit histogram size => histogram = h && min size.toNat 65535 = entry.toNat
  | _ => false

/-- How many sizes events file under an entry of a histogram. -/
def filed (h : Histogram) (entry : UInt16) (events : List Event) : Nat :=
  events.countP (filesAt h entry)

/-- What one event reports. -/
def amounts (event : Event) : Amounts :=
  ⟨event.amount, fun h entry => if event.filesAt h entry then some 1 else none,
    fun t => if event.timesIn t then 1 else 0⟩

@[simp] theorem counted_amounts (event : Event) (c : Counter) :
    event.amounts.counted c = event.amount c := rfl

@[simp] theorem filed_amounts (event : Event) (h : Histogram) (entry : UInt16) :
    event.amounts.filed h entry = if event.filesAt h entry then some 1 else none := rfl

@[simp] theorem timed_amounts (event : Event) (t : Timer) :
    event.amounts.timed t = if event.timesIn t then 1 else 0 := rfl

/-- What events report together. -/
def allAmounts (events : List Event) : Amounts := (events.map amounts).sum

theorem allAmounts_cons (event : Event) (events : List Event) :
    allAmounts (event :: events) = event.amounts + allAmounts events := by
  rw [allAmounts, List.map_cons, List.sum_cons, allAmounts]

theorem allAmounts_append (before after : List Event) :
    allAmounts (before ++ after) = allAmounts before + allAmounts after := by
  rw [allAmounts, List.map_append, List.sum_append, allAmounts, allAmounts]

/-- **The order of events does not matter.** -/
theorem allAmounts_perm {events others : List Event} (h : events.Perm others) :
    allAmounts events = allAmounts others :=
  (h.map amounts).sum_eq

theorem counted_allAmounts (events : List Event) (c : Counter) :
    (allAmounts events).counted c = total c events := by
  induction events with
  | nil => rfl
  | cons event events ih =>
    rw [allAmounts_cons, Amounts.counted_add, ih]
    rfl

theorem timed_allAmounts (events : List Event) (t : Timer) :
    (allAmounts events).timed t = samples t events := by
  induction events with
  | nil => rfl
  | cons event events ih =>
    rw [allAmounts_cons, Amounts.timed_add, ih, samples, samples, List.countP_cons, Nat.add_comm]
    rfl

/-- Sizes that were filed are entered, and without sizes there is no entry. -/
theorem filed_allAmounts (events : List Event) (h : Histogram) (entry : UInt16) :
    (allAmounts events).filed h entry =
      if filed h entry events = 0 then none else some (filed h entry events) := by
  induction events with
  | nil => rfl
  | cons event events ih =>
    have hcons : filed h entry (event :: events) =
        filed h entry events + if event.filesAt h entry then 1 else 0 := List.countP_cons
    rw [allAmounts_cons, Amounts.filed_add, filed_amounts, ih, hcons]
    cases event.filesAt h entry with
    | false => exact Option.merge_none_left
    | true =>
      rw [if_pos rfl, if_pos rfl, if_neg (Nat.succ_ne_zero _)]
      by_cases hnone : filed h entry events = 0
      · rw [hnone]
        rfl
      · rw [if_neg hnone]
        exact congrArg some (Nat.add_comm 1 _)

end Event

/-! ## 5. What a recorder shows -/

namespace SizeTally

/-- How a number of occurrences is entered: modulo 2^64, and without occurrences not at all. -/
def entered (n : Nat) : Option UInt64 := if n = 0 then none else some (UInt64.ofNat n)

end SizeTally

namespace Recorder

variable {T : Type} [TimeTally T]

/-- **A recorder shows these amounts**: modulo 2^64, and numbers of samples as long as they are
    below it. -/
structure Shows (r : Recorder T) (a : Amounts) : Prop where
  counter_eq : ∀ c, r.counter c = UInt64.ofNat (a.counted c)
  getElem?_histogram_eq : ∀ h entry, (r.histogram h)[entry]? = (a.filed h entry).map UInt64.ofNat
  samples_eq : ∀ t, a.timed t < 18446744073709551616 → (r.samples t).toNat = a.timed t

namespace Shows

variable {r s : Recorder T} {a b : Amounts}

/-- What shows the same has the same histograms. -/
theorem histogram_unique (hr : r.Shows a) (hs : s.Shows a) (h : Histogram) :
    r.histogram h = s.histogram h :=
  Std.ExtTreeMap.ext_getElem? fun entry => by
    rw [hr.getElem?_histogram_eq, hs.getElem?_histogram_eq]

/-- And as many samples. -/
theorem samples_unique (hr : r.Shows a) (hs : s.Shows a) {t : Timer}
    (hroom : a.timed t < 18446744073709551616) : r.samples t = s.samples t :=
  UInt64.toNat_inj.1 ((hr.samples_eq t hroom).trans (hs.samples_eq t hroom).symm)

variable [LawfulTimeTally T]

/-- **Recorders that are added show the amounts of both.** -/
theorem add (hr : r.Shows a) (hs : s.Shows b) : (r.add s).Shows (a + b) where
  counter_eq c := by
    rw [counter_add, hr.counter_eq, hs.counter_eq, Amounts.counted_add, UInt64.ofNat_add]
  getElem?_histogram_eq h entry := by
    rw [histogram_add, SizeTally.add_eq_join, Tally.getElem?_join UInt64.zero_add,
      hr.getElem?_histogram_eq, hs.getElem?_histogram_eq, Amounts.filed_add]
    cases a.filed h entry with
    | none => rw [Option.map_none, Option.merge_none_left, Option.merge_none_left]
    | some m => cases b.filed h entry with
      | none => rfl
      | some n => exact congrArg some (UInt64.ofNat_add m n).symm
  samples_eq t hroom := by
    rw [Amounts.timed_add] at hroom ⊢
    have hr' := hr.samples_eq t (by omega)
    have hs' := hs.samples_eq t (by omega)
    rw [samples, timer_add, LawfulTimeTally.samples_add]
    · exact congrArg₂ (· + ·) hr' hs'
    · show (r.samples t).toNat + (s.samples t).toNat < _
      rwa [hr', hs']

/-- **An event that is recorded is an amount more.** -/
theorem record (hr : r.Shows a) (event : Event) : (r.record event).Shows (a + event.amounts) where
  counter_eq c := by
    rw [counter_record, hr.counter_eq, Amounts.counted_add, UInt64.ofNat_add]
    rfl
  getElem?_histogram_eq h entry := by
    rw [Amounts.filed_add, Event.filed_amounts]
    cases hevent : event.hitsIn h with
    | false =>
      have hfiles : event.filesAt h entry = false := by
        cases event with
        | hit histogram size =>
          have hother : decide (histogram = h) = false := hevent
          rw [Event.filesAt, hother, Bool.false_and]
        | count counter n => rfl
        | time timer nanos => rfl
      rw [histogram_record r hevent, hfiles, hr.getElem?_histogram_eq]
      exact congrArg _ (Option.merge_none_right).symm
    | true =>
      obtain ⟨size, rfl⟩ := Event.eq_hit_of_hitsIn hevent
      have hentry : SizeTally.entry size = entry ↔ Event.filesAt h entry (.hit h size) = true := by
        rw [← UInt16.toNat_inj, SizeTally.toNat_entry]
        simp [Event.filesAt]
      rw [histogram_record_hit, SizeTally.hit_eq_enter]
      by_cases hsame : SizeTally.entry size = entry
      · rw [if_pos (hentry.1 hsame), hsame, Tally.getElem?_enter_self UInt64.zero_add,
          hr.getElem?_histogram_eq]
        cases a.filed h entry with
        | none => rfl
        | some n => exact congrArg some (UInt64.ofNat_add n 1).symm
      · rw [if_neg fun hfiles => hsame (hentry.2 hfiles), Tally.getElem?_enter_of_ne _ hsame,
          hr.getElem?_histogram_eq]
        exact congrArg _ (Option.merge_none_right).symm
  samples_eq t hroom := by
    rw [Amounts.timed_add, Event.timed_amounts] at hroom ⊢
    have hr' := hr.samples_eq t (by omega)
    cases hevent : event.timesIn t with
    | false =>
      rw [samples, timer_record r hevent]
      exact hr'
    | true =>
      rw [hevent, if_pos rfl] at hroom
      rw [samples_record r hevent (by rwa [hr']), hr', if_pos rfl]

theorem recordAll (hr : r.Shows a) (events : List Event) :
    (r.recordAll events).Shows (a + Event.allAmounts events) := by
  induction events generalizing r a with
  | nil => exact (add_zero a).symm ▸ hr
  | cons event events ih =>
    rw [Event.allAmounts_cons, ← add_assoc]
    exact ih (hr.record event)

end Shows

theorem shows_empty [LawfulTimeTally T] : (empty : Recorder T).Shows 0 where
  counter_eq c := counter_empty c
  getElem?_histogram_eq h entry := by
    rw [counts_empty.histogram_eq]
    rfl
  samples_eq t _ := counts_empty.samples_eq t

/-- Whatever was reported before, a recorder that was reset shows nothing. -/
theorem shows_reset [LawfulTimeTally T] (r : Recorder T) : r.reset.Shows 0 where
  counter_eq c := by simp [reset, Recorder.counter]
  getElem?_histogram_eq h entry := by simp [reset, Recorder.histogram]
  samples_eq t _ := by
    have htimer : r.reset.timer t = TimeTally.reset (r.timer t) := by simp [reset, Recorder.timer]
    rw [samples, htimer]
    exact LawfulTimeTally.samples_reset (r.timer t)

/-- **A recorder shows the events that it was told.** -/
theorem shows_recordAll [LawfulTimeTally T] (events : List Event) :
    ((empty : Recorder T).recordAll events).Shows (Event.allAmounts events) :=
  zero_add (Event.allAmounts events) ▸ shows_empty.recordAll events

/-- How events are entered in a histogram. -/
theorem Shows.getElem?_histogram_of_events {r : Recorder T} {events : List Event}
    (hr : r.Shows (Event.allAmounts events)) (h : Histogram) (entry : UInt16) :
    (r.histogram h)[entry]? = SizeTally.entered (Event.filed h entry events) := by
  rw [hr.getElem?_histogram_eq, Event.filed_allAmounts, SizeTally.entered]
  split <;> rfl

end Recorder

end FieldRecords
