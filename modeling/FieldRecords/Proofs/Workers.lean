import Mathlib.Logic.Function.Basic
import FieldRecords.Metric.Latency
import FieldRecords.Proofs.RecorderSums

/-!
# Recorders of many workers

Every worker reports to a recorder of its own, and in the end the recorders are added up, one into
another or two to a new one, in whatever order the workers come to their end.

The sums are taken among things with names (`Summing`), and they are taken of recorders, of amounts
and of lists of names alike: what holds of the parts holds of the sums (`Summing.run_rel`), and
reading something off before is reading it off after (`Summing.run_map`). So a sum shows what its
parts were told (`Recorder.shows_run_recordAllBy`), and **if each recorder is a part of it once,
nothing is lost and nothing comes twice** (`recorders_add_up`).
-/

namespace FieldRecords

/-! ## 1. Sums among named recorders -/

/-- One sum among things that have names. -/
inductive Summing (ν : Type) where
  /-- One is added into another, in its place. -/
  | into (target other : ν)
  /-- A new one is made of the sum of two. -/
  | plus (target first second : ν)
deriving DecidableEq

namespace Summing

variable {ν α β : Type}

/-- The name of what is changed or made. -/
def target : Summing ν → ν
  | into target _ => target
  | plus target _ _ => target

variable [DecidableEq ν] (add : α → α → α)

/-- What is changed or made is the sum, and everything else stays as it is. -/
def step (s : ν → α) : Summing ν → ν → α
  | into target other => Function.update s target (add (s target) (s other))
  | plus target first second => Function.update s target (add (s first) (s second))

/-- One sum after the other. -/
def run (s : ν → α) (sums : List (Summing ν)) : ν → α := sums.foldl (step add) s

variable {add}

/-- **What no sum goes into is left as it was**, whatever sums it is a part of. -/
theorem run_other {sums : List (Summing ν)} {name : ν} (h : ∀ sum ∈ sums, sum.target ≠ name)
    (s : ν → α) : run add s sums name = s name := by
  induction sums generalizing s with
  | nil => rfl
  | cons sum sums ih =>
    have hstep : step add s sum name = s name := by
      have hne := (h sum List.mem_cons_self).symm
      cases sum with
      | into target other => exact Function.update_of_ne hne _ _
      | plus target first second => exact Function.update_of_ne hne _ _
    exact (ih (fun other hother => h other (List.mem_cons_of_mem _ hother)) _).trans hstep

/-- **What holds of the parts holds of the sums**, if it holds of a sum of two when it holds of
    both. -/
theorem run_rel {plus : β → β → β} {R : α → β → Prop}
    (hR : ∀ {a b x y}, R a x → R b y → R (add a b) (plus x y)) (sums : List (Summing ν))
    {s : ν → α} {u : ν → β} (h : ∀ name, R (s name) (u name)) (name : ν) :
    R (run add s sums name) (run plus u sums name) := by
  induction sums generalizing s u with
  | nil => exact h name
  | cons sum sums ih =>
    refine ih (s := step add s sum) (u := step plus u sum) fun other => ?_
    cases sum with
    | into target added =>
      by_cases hname : other = target
      · subst hname
        simpa [step] using hR (h other) (h added)
      · simpa [step, hname] using h other
    | plus target first second =>
      by_cases hname : other = target
      · subst hname
        simpa [step] using hR (h first) (h second)
      · simpa [step, hname] using h other

/-- **Sums can be taken before or after something is read off**, if it turns sums into sums. -/
theorem run_map {plus : β → β → β} {f : α → β} (hf : ∀ a b, f (add a b) = plus (f a) (f b))
    (s : ν → α) (sums : List (Summing ν)) (name : ν) :
    run plus (fun name => f (s name)) sums name = f (run add s sums name) := by
  refine run_rel (R := fun x a => x = f a) (fun {x y a b} hx hy => ?_) sums (fun _ => rfl) name
  show plus x y = f (add a b)
  rw [hf, hx, hy]

/-- Which of the things at the beginning are in a sum, each as often as it was added. -/
def parts (sums : List (Summing ν)) : ν → List ν := run (· ++ ·) (fun name => [name]) sums

end Summing

/-! ## 2. Events of many workers -/

namespace Recorder

variable {ν T : Type} [DecidableEq ν] [TimeTally T]

/-- The worker of that name reports an event to its recorder. -/
def recordBy (s : ν → Recorder T) (report : ν × Event) : ν → Recorder T :=
  Function.update s report.1 ((s report.1).record report.2)

/-- **What every worker's recorder shows** after all reports, in the order in which they came. -/
def recordAllBy (reports : List (ν × Event)) : ν → Recorder T :=
  reports.foldl recordBy fun _ => empty

/-- The events that one worker reported. -/
def share (reports : List (ν × Event)) (name : ν) : List Event :=
  (reports.filter fun report => report.1 = name).map Prod.snd

theorem share_cons_self (name : ν) (event : Event) (reports : List (ν × Event)) :
    share ((name, event) :: reports) name = event :: share reports name := by
  simp [share]

theorem share_cons_of_ne {name other : ν} (h : name ≠ other) (event : Event)
    (reports : List (ν × Event)) :
    share ((name, event) :: reports) other = share reports other := by
  simp [share, h]

/-- Every worker's recorder shows the events that this worker reported. -/
theorem recordAllBy_eq (reports : List (ν × Event)) :
    (recordAllBy reports : ν → Recorder T) = fun name => empty.recordAll (share reports name) := by
  have hrun : ∀ s : ν → Recorder T,
      reports.foldl recordBy s = fun name => (s name).recordAll (share reports name) := by
    induction reports with
    | nil => exact fun s => rfl
    | cons report reports ih =>
      obtain ⟨worker, event⟩ := report
      intro s
      rw [List.foldl_cons, ih]
      funext name
      by_cases hname : worker = name
      · subst hname
        rw [share_cons_self, recordAll_cons, recordBy, Function.update_self]
      · rw [share_cons_of_ne hname, recordBy, Function.update_of_ne (Ne.symm hname)]
  exact hrun fun _ => empty

/-- **The shares of all workers together are the events**, if no worker is taken twice. -/
theorem flatMap_share_perm {reports : List (ν × Event)} {names : List ν} (honce : names.Nodup)
    (hall : ∀ report ∈ reports, report.1 ∈ names) :
    (names.flatMap (share reports)).Perm (reports.map Prod.snd) := by
  induction reports with
  | nil =>
    have hnil : names.flatMap (share []) = [] := List.flatMap_eq_nil_iff.2 fun _ _ => rfl
    rw [hnil]
    exact .refl _
  | cons report reports ih =>
    obtain ⟨worker, event⟩ := report
    have hrest := ih fun other hother => hall other (List.mem_cons_of_mem _ hother)
    -- the worker stands among the names once, so only its own share grows
    obtain ⟨before, after, rfl⟩ := List.append_of_mem (hall (worker, event) List.mem_cons_self)
    have hsame : ∀ others : List ν, worker ∉ others →
        others.flatMap (share ((worker, event) :: reports)) = others.flatMap (share reports) := by
      intro others hothers
      rw [List.flatMap_def, List.flatMap_def]
      refine congrArg List.flatten (List.map_congr_left fun other hother => ?_)
      have hne : worker ≠ other := ne_of_mem_of_not_mem hother hothers |>.symm
      exact share_cons_of_ne hne event reports
    have hbefore : worker ∉ before := fun h =>
      (List.nodup_append.1 honce).2.2 worker h worker List.mem_cons_self rfl
    have hafter : worker ∉ after := (List.nodup_cons.1 (List.nodup_append.1 honce).2.1).1
    rw [List.flatMap_append, List.flatMap_cons] at hrest ⊢
    rw [hsame before hbefore, hsame after hafter, share_cons_self]
    exact (List.perm_middle).trans (hrest.cons event)

/-- What some workers reported together. -/
def reportedBy (reports : List (ν × Event)) (names : List ν) : Amounts :=
  Event.allAmounts (names.flatMap (share reports))

theorem reportedBy_append (reports : List (ν × Event)) (names others : List ν) :
    reportedBy reports (names ++ others) =
      reportedBy reports names + reportedBy reports others := by
  rw [reportedBy, List.flatMap_append, Event.allAmounts_append, reportedBy, reportedBy]

/-- Every worker's recorder shows what this worker reported. -/
theorem shows_recordAllBy [LawfulTimeTally T] (reports : List (ν × Event)) (name : ν) :
    (recordAllBy reports name : Recorder T).Shows (reportedBy reports [name]) := by
  rw [recordAllBy_eq, reportedBy, List.flatMap_singleton]
  exact shows_recordAll (share reports name)

/-- **Whatever sums are taken, each recorder shows what its parts were told.** -/
theorem shows_run_recordAllBy [LawfulTimeTally T] (reports : List (ν × Event))
    (sums : List (Summing ν)) (name : ν) :
    (Summing.run add (recordAllBy reports : ν → Recorder T) sums name).Shows
      (reportedBy reports (Summing.parts sums name)) := by
  rw [Summing.parts, ← Summing.run_map (reportedBy_append reports)]
  exact Summing.run_rel (fun ha hb => ha.add hb) sums (shows_recordAllBy reports) name

end Recorder

/-- **Recorders of many workers add up to one that was told everything.** Events are reported to any
    number of recorders, and then the recorders are added up, one into another or two to a new one,
    in any order and grouping. If every recorder that was told something is a part of a sum, and
    none is twice, the sum shows what the recorder shows that was told all events, in any order:

    * modulo 2^64, each counter the sum of the amounts, and each histogram how often each size was
      filed, where sizes from 65535 on are filed together;
    * each timer how many samples were taken, as long as there are fewer than 2^64.

    Being a part of sums does not change a recorder: it stays as it is until a sum goes into it. -/
theorem recorders_add_up {ν T : Type} [DecidableEq ν] [TimeTally T] [LawfulTimeTally T]
    (reports : List (ν × Event)) (sums : List (Summing ν)) {name : ν}
    (honce : (Summing.parts sums name).Nodup)
    (hall : ∀ report ∈ reports, report.1 ∈ Summing.parts sums name) {events : List Event}
    (horder : events.Perm (reports.map Prod.snd)) :
    let apart : ν → Recorder T := Recorder.recordAllBy reports
    let sum := Summing.run Recorder.add apart sums name
    let whole : Recorder T := Recorder.empty.recordAll events
    (∀ c, sum.counter c = whole.counter c ∧
      sum.counter c = UInt64.ofNat (Event.total c events)) ∧
    (∀ h, sum.histogram h = whole.histogram h ∧
      ∀ entry, (sum.histogram h)[entry]? = SizeTally.entered (Event.filed h entry events)) ∧
    (∀ t, Event.samples t events < 18446744073709551616 →
      sum.samples t = whole.samples t ∧ (sum.samples t).toNat = Event.samples t events) ∧
    ∀ (earlier later : List (Summing ν)) (other : ν), sums = earlier ++ later →
      (∀ sum ∈ later, sum.target ≠ other) →
      Summing.run Recorder.add apart sums other = Summing.run Recorder.add apart earlier other := by
  intro apart sum whole
  have hwhole : whole.Shows (Event.allAmounts events) := Recorder.shows_recordAll events
  have hsum : sum.Shows (Event.allAmounts events) := by
    rw [Event.allAmounts_perm (horder.trans (Recorder.flatMap_share_perm honce hall).symm)]
    exact Recorder.shows_run_recordAllBy reports sums name
  refine ⟨fun c => ⟨?_, ?_⟩, fun h => ⟨?_, fun entry => ?_⟩, fun t hroom => ?_, ?_⟩
  · rw [hsum.counter_eq, hwhole.counter_eq]
  · rw [hsum.counter_eq, Event.counted_allAmounts]
  · exact hsum.histogram_unique hwhole h
  · exact hsum.getElem?_histogram_of_events h entry
  · rw [← Event.timed_allAmounts] at hroom ⊢
    exact ⟨hsum.samples_unique hwhole hroom, hsum.samples_eq t hroom⟩
  · rintro earlier later other rfl hother
    rw [Summing.run, List.foldl_append]
    exact Summing.run_other hother _

/-- Three workers report by turns: amounts that go beyond 2^64 together, sizes that share the last
    entry, and samples. Two of the recorders are added up to a new one, and this is added into the
    third; the recorder that is told everything is told it in another order. The new one stays as it
    was made. -/
theorem recorders_of_three_workers :
    let reports : List (Nat × Event) := [
      (0, .count .recordAppend 18446744073709551615), (1, .hit .mergedFieldCount 65535),
      (2, .time .merge 7), (1, .count .recordAppend 2), (0, .hit .mergedFieldCount 3),
      (2, .hit .mergedFieldCount 70000), (1, .time .merge 0)]
    let events : List Event := [
      .time .merge 0, .time .merge 7, .hit .mergedFieldCount 70000, .hit .mergedFieldCount 65535,
      .hit .mergedFieldCount 3, .count .recordAppend 2, .count .recordAppend 18446744073709551615]
    let sums : List (Summing Nat) := [.plus 3 1 2, .into 0 3]
    let apart : Nat → Recorder Latency := Recorder.recordAllBy reports
    let left := Summing.run Recorder.add apart sums
    let whole : Recorder Latency := Recorder.empty.recordAll events
    (Summing.parts sums 0).Nodup ∧ (∀ report ∈ reports, report.1 ∈ Summing.parts sums 0) ∧
      events.Perm (reports.map Prod.snd) ∧
      (∀ h, (left 0).histogram h = whole.histogram h) ∧ (left 0).counter .recordAppend = 1 ∧
      ((left 0).histogram .mergedFieldCount)[(65535 : UInt16)]? = some 2 ∧
      ((left 0).histogram .mergedFieldCount)[(4 : UInt16)]? = none ∧
      ((left 0).samples .merge).toNat = 2 ∧ left 1 = apart 1 ∧
      left 3 = Summing.run Recorder.add apart [.plus 3 1 2] 3 := by
  intro reports events sums apart left whole
  have honce : (Summing.parts sums 0).Nodup := by decide
  have hall : ∀ report ∈ reports, report.1 ∈ Summing.parts sums 0 := by decide
  have horder : events.Perm (reports.map Prod.snd) := by decide
  obtain ⟨hcounter, hsize, htime, hother⟩ :=
    recorders_add_up (T := Latency) reports sums honce hall horder
  refine ⟨honce, hall, horder, fun h => (hsize h).1, ?_, ?_, ?_, ?_, ?_, ?_⟩
  · exact (hcounter .recordAppend).2.trans (by decide)
  · exact ((hsize .mergedFieldCount).2 65535).trans (by decide)
  · exact ((hsize .mergedFieldCount).2 4).trans (by decide)
  · exact (htime .merge (by decide)).2.trans (by decide)
  · exact hother [] sums 1 rfl (by decide)
  · exact hother [.plus 3 1 2] [.into 0 3] 3 rfl (by decide)

end FieldRecords
