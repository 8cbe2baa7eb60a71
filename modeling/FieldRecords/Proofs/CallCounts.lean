import FieldRecords.Metric.Latency
import FieldRecords.Proofs.GrantedSteps
import FieldRecords.Proofs.Ledger
import FieldRecords.Proofs.RecorderSums
import FieldRecords.Proofs.Warnings

/-!
# What the counters tell of one call

A call that is granted reports what its granted steps count, and then files its sizes
(`mergeInto_granted`, `project_granted`); one that is refused files nothing, and a merge of broken
bytes does not get as far as its base (`mergeInto_refused`, `project_refused`). So a recorder shows
after the call how many fields the result has more than its base, and how many it has of those that
were stored (`counters_tell_what_happened_to_fields`), with names repeated as often as they like.
-/

namespace FieldRecords

/-! ## 1. Calls that are granted, and calls that are refused -/

/-- **No size is filed, and no merge or projection is counted.** -/
structure Unfiled (events : List Event) : Prop where
  hits : ∀ h, Event.hits h events = 0
  merges : Event.total .merge events = 0
  projects : Event.total .project events = 0

theorem Unfiled.append {before after : List Event} (h : Unfiled before) (h' : Unfiled after) :
    Unfiled (before ++ after) where
  hits histogram := by rw [Event.hits_append, h.hits, h'.hits]
  merges := by rw [Event.total_append, h.merges, h'.merges]
  projects := by rw [Event.total_append, h.projects, h'.projects]

/-- What is reported on the way files nothing. -/
theorem Reports.unfiled {events : List Event} {outcome : Except CodecError Unit}
    (h : Reports events outcome) : Unfiled events := by
  have hbalanced := h.balanced
  have hmerges : Event.total .merge events = 0 := hbalanced.merges
  have hprojects : Event.total .project events = 0 := hbalanced.projects
  refine ⟨fun histogram => ?_, hmerges, hprojects⟩
  cases histogram with
  | mergedFieldCount => exact hbalanced.mergedFieldCounts.trans hmerges
  | projectedFieldCount => exact hbalanced.projectedFieldCounts.trans hprojects
  | mergedRecordSize => exact hbalanced.mergedRecordSizes.trans hmerges

/-- **An update is refused over a record for a field of its own**, and not for the bytes. -/
theorem Buffer.overlay_refused {b : Buffer} {r : Row} (h : b.Holds r) {update : View}
    (hfault : update.contents.fault = none) {error : CodecError}
    (hrefused : (b.overlay update).value.outcome = .error error) : error.isMalformed = false := by
  have houtcome := (holds_overlay h hfault).outcome
  obtain ⟨s, f, hstep⟩ := Answer.refused_of_foldUntilRefused (houtcome.symm.trans hrefused)
  exact Row.lay_refused hstep

section

variable {base update v : View} {out : Buffer} {wanted : Selection} {order : ProjectionOrder}
  {error : CodecError}

/-- **A merge that is granted** takes over its base, lays the update over it, and files the sizes of
    what it leaves. -/
theorem mergeInto_granted (hbase : 4 ≤ base.bytes.length)
    (hgranted : (mergeInto base update out).value.outcome = .ok ()) :
    let merged := (mergeInto base update out).value.buffer
    ∃ inner, Unfiled inner ∧ Laid base.length update.length inner merged ∧
      (mergeInto base update out).events =
        .time .merge 0 :: .count .recordAssign 1 :: (inner ++
          [.count .merge 1, .hit .mergedFieldCount merged.length.toUInt64,
            .hit .mergedRecordSize merged.bytes.length.toUInt64]) := by
  intro merged
  obtain ⟨hevents, houtcome, hbuffer⟩ := events_mergeInto base update out
  have hlaid := houtcome.symm.trans hgranted
  obtain ⟨hfault, -, hover⟩ | ⟨-, error, -, hrefused⟩ := layOver_cases base update out
  · have hholds := Buffer.holds_withBytes (b := out) (r := ⟨out.limit, []⟩) rfl hbase hfault
    have hlength : base.contents.fields.length = base.length :=
      (View.length_of_written (Record.written_of_fault_none hbase hfault)).symm
    rw [show merged = _ from hbuffer hgranted, hevents, hlaid, hover]
    rw [hover] at hlaid
    refine ⟨((out.withBytes base.bytes).overlay update).events, ?_, ?_, rfl⟩
    · exact (Buffer.reports_overlay _ update).unfiled
    · rw [← hlength]
      exact Buffer.overlay_granted hholds hlaid
  · rw [hrefused] at hlaid
    cases hlaid

/-- **A merge that is refused** files nothing; and if it is refused for broken bytes, the fault and
    the clearing of the output are all that it counts. -/
theorem mergeInto_refused
    (hrefused : (mergeInto base update out).value.outcome = .error error) :
    Unfiled (mergeInto base update out).events ∧
      (4 ≤ base.bytes.length → error.isMalformed = true →
        (mergeInto base update out).events =
          [.time .merge 0, .count .decodeError 1, .count .recordClear 1]) := by
  refine ⟨?_, fun hbase hmalformed => ?_⟩
  · obtain ⟨inner, merged, hreports, hevents⟩ := reports_mergeInto base update out
    have htaken : Unfiled (mergeTakesOver base update) := by
      unfold mergeTakesOver
      split <;> exact ⟨fun _ => rfl, rfl, rfl⟩
    have htimed : Unfiled [.time .merge 0] := ⟨fun _ => rfl, rfl, rfl⟩
    have hcleared : Unfiled [.count .recordClear 1] := ⟨fun _ => rfl, rfl, rfl⟩
    rw [hevents, hrefused]
    exact htimed.append ((htaken.append hreports.unfiled).append hcleared)
  · obtain ⟨hevents, houtcome, -⟩ := events_mergeInto base update out
    have hlaid := houtcome.symm.trans hrefused
    obtain ⟨hfault, hupdate, hover⟩ | ⟨-, other, -, hover⟩ := layOver_cases base update out
    · have hholds := Buffer.holds_withBytes (b := out) (r := ⟨out.limit, []⟩) rfl hbase hfault
      rw [hover] at hlaid
      exact absurd ((Buffer.overlay_refused hholds hupdate hlaid).symm.trans hmalformed)
        Bool.false_ne_true
    · rw [hevents, hlaid, hover]
      rfl

/-- **A projection of something that is granted** clears the output, keeps the wanted fields, and
    files their number. -/
theorem project_granted (hwanted : wanted.isEmpty = false)
    (hgranted : (project v wanted order out).value.outcome = .ok ()) :
    let kept := (project v wanted order out).value.buffer
    ∃ inner, Unfiled inner ∧ Picked kept.length inner ∧
      (order = .source → kept.length + Event.total .projectSkipped inner = v.length) ∧
      (order = .request → Event.total .projectSkipped inner = 0) ∧
      (project v wanted order out).events =
        .time .project 0 :: .count .recordClear 1 :: (inner ++
          [.count .project 1, .hit .projectedFieldCount kept.length.toUInt64]) := by
  intro kept
  obtain ⟨hevents, houtcome, hbuffer⟩ := events_project v order out hwanted
  have hran := houtcome.symm.trans hgranted
  have hempty : out.clear.value.length = 0 := by
    rw [Buffer.length, Buffer.view, Buffer.bytes_clear]
    rfl
  obtain ⟨hpicked, hsource, hrequest⟩ := projectInOrder_granted hempty hran
  have hreports := reports_projectInOrder v wanted order out.clear.value
  rw [show kept = _ from hbuffer hgranted, hevents, hran]
  exact ⟨_, hreports.unfiled, hpicked, hsource, hrequest, rfl⟩

/-- **A projection that is refused** files nothing. -/
theorem project_refused
    (hrefused : (project v wanted order out).value.outcome = .error error) :
    Unfiled (project v wanted order out).events := by
  have hwanted : wanted.isEmpty = false := by
    cases hempty : wanted.isEmpty with
    | false => rfl
    | true =>
      rw [(project_of_isEmpty v order out hempty).1] at hrefused
      cases hrefused
  obtain ⟨inner, kept, hreports, hevents⟩ := reports_project v order out hwanted
  have hbegun : Unfiled [.time .project 0, .count .recordClear 1] := ⟨fun _ => rfl, rfl, rfl⟩
  have hcleared : Unfiled [.count .recordClear 1] := ⟨fun _ => rfl, rfl, rfl⟩
  rw [hevents, hrefused]
  exact hbegun.append (hreports.unfiled.append hcleared)

end

/-! ## 2. What a recorder shows -/

namespace Event

/-- Only what is reported in the middle moves the counter. -/
theorem total_between {c : Counter} {first last : List Event} (hfirst : total c first = 0)
    (hlast : total c last = 0) (inner : List Event) :
    total c (first ++ (inner ++ last)) = total c inner := by
  rw [total_append, total_append, hfirst, hlast, Nat.zero_add, Nat.add_zero]

/-- Nothing is filed if nothing is filed in any part. -/
theorem hits_between {h : Histogram} {first inner last : List Event} (hfirst : hits h first = 0)
    (hinner : hits h inner = 0) (hlast : hits h last = 0) :
    hits h (first ++ (inner ++ last)) = 0 := by
  rw [hits_append, hits_append, hfirst, hinner, hlast]

end Event

namespace Recorder

variable {T : Type} [TimeTally T]

/-- **How far a counter has moved** from one recorder to the other. -/
def growth (before after : Recorder T) (c : Counter) : UInt64 := after.counter c - before.counter c

theorem growth_recordAll (r : Recorder T) (events : List Event) (c : Counter) :
    r.growth (r.recordAll events) c = UInt64.ofNat (Event.total c events) := by
  rw [growth, counter_recordAll, UInt64.add_comm, UInt64.add_sub_cancel]

/-- A size that is filed once is filed once more than before. -/
theorem histogram_recordAll_of_hit (r : Recorder T) {before after : List Event} {h : Histogram}
    {size : Nat} (hsize : size < 18446744073709551616) (hbefore : Event.hits h before = 0)
    (hafter : Event.hits h after = 0) :
    (r.recordAll (before ++ .hit h size.toUInt64 :: after)).histogram h =
      (r.histogram h).addTo (min size 65535).toUInt16 1 := by
  rw [recordAll_append, recordAll_cons, histogram_recordAll_of_hits _ hafter, histogram_record_hit,
    histogram_recordAll_of_hits _ hbefore, SizeTally.hit_toUInt64 _ hsize]

/-- **What recorders before and after a merge show that was granted.** -/
structure ShowsMerge (before : Recorder T) (base update : View) (merged : Buffer)
    (after : Recorder T) : Prop where
  length_le : base.length ≤ merged.length
  mergeAppend : before.growth after .mergeAppend = (merged.length - base.length).toUInt64
  /-- Every field of the update is counted once. -/
  update : before.growth after .mergeAppend + before.growth after .mergeOverwrite =
    update.length.toUInt64
  recordAppend : before.growth after .recordAppend = before.growth after .mergeAppend
  mergedFieldCount : after.histogram .mergedFieldCount =
    (before.histogram .mergedFieldCount).addTo (min merged.length 65535).toUInt16 1
  mergedRecordSize : merged.bytes.length ≤ Room.maxBytes → after.histogram .mergedRecordSize =
    (before.histogram .mergedRecordSize).addTo (min merged.bytes.length 65535).toUInt16 1

/-- **What recorders before and after a projection of something show that was granted.** -/
structure ShowsProjection (before : Recorder T) (v : View) (order : ProjectionOrder) (kept : Buffer)
    (after : Recorder T) : Prop where
  projectKept : before.growth after .projectKept = kept.length.toUInt64
  recordAppend : before.growth after .recordAppend = kept.length.toUInt64
  projectedFieldCount : after.histogram .projectedFieldCount =
    (before.histogram .projectedFieldCount).addTo (min kept.length 65535).toUInt16 1
  /-- In stored order the other fields are counted as well. -/
  source : order = .source → kept.length ≤ v.length ∧
    before.growth after .projectSkipped = (v.length - kept.length).toUInt64
  request : order = .request → before.growth after .projectSkipped = 0

/-- **What recorders before and after a call show that was refused.** -/
structure ShowsRefusal (before after : Recorder T) : Prop where
  histogram : ∀ h, after.histogram h = before.histogram h
  merge : after.counter .merge = before.counter .merge
  project : after.counter .project = before.counter .project

theorem showsMerge_of_granted (r : Recorder T) {base update : View} {out : Buffer}
    (hbase : 4 ≤ base.bytes.length)
    (hgranted : (mergeInto base update out).value.outcome = .ok ()) :
    r.ShowsMerge base update (mergeInto base update out).value.buffer
      (r.recordAll (mergeInto base update out).events) := by
  obtain ⟨inner, hunfiled, hlaid, hevents⟩ := mergeInto_granted hbase hgranted
  generalize (mergeInto base update out).value.buffer = merged at hlaid hevents ⊢
  generalize (mergeInto base update out).events = events at hevents ⊢
  obtain ⟨row, hholds, hfields⟩ := hlaid.holds
  have hlength : merged.length = base.length + Event.total .mergeAppend inner :=
    (Buffer.length_of_holds hholds).trans hfields
  have hcount : merged.length < 18446744073709551616 :=
    Nat.lt_of_le_of_lt (View.length_le_maxLength merged.view) (by decide)
  have htotal : ∀ c, Event.total c [.time .merge 0, .count .recordAssign 1] = 0 →
      Event.total c [.count .merge 1, .hit .mergedFieldCount merged.length.toUInt64,
        .hit .mergedRecordSize merged.bytes.length.toUInt64] = 0 →
      Event.total c events = Event.total c inner := fun c hfirst hlast => by
    rw [hevents]
    exact Event.total_between hfirst hlast inner
  have hmergeAppend := htotal .mergeAppend rfl rfl
  constructor
  case length_le => omega
  case mergeAppend => rw [growth_recordAll, hmergeAppend, hlength, Nat.add_sub_cancel_left]
  case update =>
    rw [growth_recordAll, growth_recordAll, hmergeAppend, htotal .mergeOverwrite rfl rfl,
      ← UInt64.ofNat_add, hlaid.all]
  case recordAppend =>
    rw [growth_recordAll, growth_recordAll, hmergeAppend, htotal .recordAppend rfl rfl,
      hlaid.appends]
  case mergedFieldCount =>
    have hbefore : Event.hits .mergedFieldCount
        ([.time .merge 0, .count .recordAssign 1] ++ (inner ++ [.count .merge 1])) = 0 :=
      Event.hits_between rfl (hunfiled.hits _) rfl
    have hfiled := r.histogram_recordAll_of_hit (h := .mergedFieldCount) hcount hbefore
      (show Event.hits .mergedFieldCount
        [.hit .mergedRecordSize merged.bytes.length.toUInt64] = 0 from rfl)
    simp only [List.append_assoc, List.cons_append, List.nil_append] at hfiled
    rw [hevents]
    exact hfiled
  case mergedRecordSize =>
    intro hroom
    have hbefore : Event.hits .mergedRecordSize
        ([.time .merge 0, .count .recordAssign 1] ++
          (inner ++ [.count .merge 1, .hit .mergedFieldCount merged.length.toUInt64])) = 0 :=
      Event.hits_between rfl (hunfiled.hits _) rfl
    have hsize : merged.bytes.length < 18446744073709551616 :=
      Nat.lt_of_le_of_lt hroom (by decide)
    have hfiled := r.histogram_recordAll_of_hit (h := .mergedRecordSize) hsize hbefore
      (show Event.hits .mergedRecordSize [] = 0 from rfl)
    simp only [List.append_assoc, List.cons_append, List.nil_append] at hfiled
    rw [hevents]
    exact hfiled

theorem showsProjection_of_granted (r : Recorder T) {v : View} {wanted : Selection}
    {order : ProjectionOrder} {out : Buffer} (hwanted : wanted.isEmpty = false)
    (hgranted : (project v wanted order out).value.outcome = .ok ()) :
    r.ShowsProjection v order (project v wanted order out).value.buffer
      (r.recordAll (project v wanted order out).events) := by
  obtain ⟨inner, hunfiled, hpicked, hsource, hrequest, hevents⟩ :=
    project_granted hwanted hgranted
  generalize (project v wanted order out).value.buffer = kept
    at hpicked hsource hrequest hevents ⊢
  generalize (project v wanted order out).events = events at hevents ⊢
  have hcount : kept.length < 18446744073709551616 :=
    Nat.lt_of_le_of_lt (View.length_le_maxLength kept.view) (by decide)
  have htotal : ∀ c, Event.total c [.time .project 0, .count .recordClear 1] = 0 →
      Event.total c [.count .project 1, .hit .projectedFieldCount kept.length.toUInt64] = 0 →
      Event.total c events = Event.total c inner := fun c hfirst hlast => by
    rw [hevents]
    exact Event.total_between hfirst hlast inner
  have hskipped := htotal .projectSkipped rfl rfl
  constructor
  case projectKept => rw [growth_recordAll, htotal .projectKept rfl rfl, hpicked.kept]
  case recordAppend => rw [growth_recordAll, htotal .recordAppend rfl rfl, hpicked.appends]
  case projectedFieldCount =>
    have hbefore : Event.hits .projectedFieldCount
        ([.time .project 0, .count .recordClear 1] ++ (inner ++ [.count .project 1])) = 0 :=
      Event.hits_between rfl (hunfiled.hits _) rfl
    have hfiled := r.histogram_recordAll_of_hit (h := .projectedFieldCount) hcount hbefore
      (show Event.hits .projectedFieldCount [] = 0 from rfl)
    simp only [List.append_assoc, List.cons_append, List.nil_append] at hfiled
    rw [hevents]
    exact hfiled
  case source =>
    intro horder
    have hall := hsource horder
    refine ⟨by omega, ?_⟩
    rw [growth_recordAll, hskipped, ← hall, Nat.add_sub_cancel_left]
  case request =>
    intro horder
    rw [growth_recordAll, hskipped, hrequest horder]
    rfl

theorem showsRefusal_of_unfiled (r : Recorder T) {events : List Event} (h : Unfiled events) :
    r.ShowsRefusal (r.recordAll events) :=
  ⟨fun histogram => r.histogram_recordAll_of_hits (h.hits histogram),
    r.counter_recordAll_of_total h.merges, r.counter_recordAll_of_total h.projects⟩

end Recorder

/-- **The counters tell what happened to the fields of a call**, whatever a recorder shows
    before it.

    If a merge is granted, as many fields are counted as appended, by the merge and by the record,
    as the result has more than the base, and with those that are counted as overwritten they are
    the fields of the update; the number of fields and of bytes of the result are filed once. If a
    projection of something is granted, the fields of the result are counted as kept and as
    appended, and their number is filed once; in stored order the other fields are counted as
    skipped, and in asked order none are. What is refused files no size and is not counted as a
    merge or a projection, and a merge that is refused for broken bytes counts no field and no
    record. -/
theorem counters_tell_what_happened_to_fields {T : Type} [TimeTally T] (r : Recorder T) :
    (∀ (base update : View) (out : Buffer), 4 ≤ base.bytes.length →
      let call := mergeInto base update out
      let after := r.recordAll call.events
      (call.value.outcome = .ok () → r.ShowsMerge base update call.value.buffer after) ∧
      ∀ error, call.value.outcome = .error error → r.ShowsRefusal after ∧
        (error.isMalformed = true →
          ∀ c ∈ [Counter.recordAssign, .recordAppend, .mergeAppend, .mergeOverwrite],
            after.counter c = r.counter c)) ∧
    ∀ (v : View) (wanted : Selection) (order : ProjectionOrder) (out : Buffer),
      let call := project v wanted order out
      let after := r.recordAll call.events
      (call.value.outcome = .ok () → wanted.isEmpty = false →
        r.ShowsProjection v order call.value.buffer after) ∧
      ∀ error, call.value.outcome = .error error → r.ShowsRefusal after := by
  refine ⟨fun base update out hbase => ⟨r.showsMerge_of_granted hbase, fun error herror => ?_⟩,
    fun v wanted order out =>
    ⟨fun hgranted hwanted => r.showsProjection_of_granted hwanted hgranted,
      fun error herror => r.showsRefusal_of_unfiled (project_refused herror)⟩⟩
  obtain ⟨hunfiled, hevents⟩ := mergeInto_refused herror
  refine ⟨r.showsRefusal_of_unfiled hunfiled, fun hmalformed c hc => ?_⟩
  refine r.counter_recordAll_of_total ?_
  rw [hevents hbase hmalformed]
  revert c
  decide

/-- A row and an update that both repeat a name: one field is appended and two are laid over others,
    though one of these was appended just before. Two of the three fields of the row have the wanted
    name; in stored order the third is skipped, in asked order only the first is kept. A merge that
    breaks off in the update does not even count its base. -/
theorem counts_of_repeated_names :
    let row : View := ⟨Record.encode [⟨[97], [1]⟩, ⟨[98], [2]⟩, ⟨[97], [3]⟩]⟩
    let update : View := ⟨Record.encode [⟨[97], [9]⟩, ⟨[99], []⟩, ⟨[99], [5]⟩]⟩
    let broken : View := ⟨[1, 0, 0, 0, 9]⟩
    let wanted : Selection := .list [[97], [100]]
    let r : Recorder Latency := Recorder.empty
    let merged := r.recordAll (mergeInto row update Buffer.new).events
    let refused := r.recordAll (mergeInto row broken Buffer.new).events
    let stored := r.recordAll (project row wanted .source Buffer.new).events
    let asked := r.recordAll (project row wanted .request Buffer.new).events
    r.growth merged .mergeAppend = 1 ∧
      r.growth merged .mergeAppend + r.growth merged .mergeOverwrite = 3 ∧
      merged.histogram .mergedFieldCount = (r.histogram .mergedFieldCount).addTo 4 1 ∧
      merged.histogram .mergedRecordSize = (r.histogram .mergedRecordSize).addTo 44 1 ∧
      refused.counter .recordAssign = r.counter .recordAssign ∧
      r.growth stored .projectKept = 2 ∧ r.growth stored .projectSkipped = 1 ∧
      r.growth asked .projectKept = 1 ∧ r.growth asked .projectSkipped = 0 := by
  intro row update broken wanted r merged refused stored asked
  obtain ⟨hmerge, hproject⟩ := counters_tell_what_happened_to_fields r
  have hmerged := (hmerge row update Buffer.new (by decide)).1 (by decide)
  have hrefused := (hmerge row broken Buffer.new (by decide)).2 _ rfl
  have hstored := (hproject row wanted .source Buffer.new).1 (by decide) rfl
  have hasked := (hproject row wanted .request Buffer.new).1 (by decide) rfl
  have hfields : (mergeInto row update Buffer.new).value.buffer.length = 4 := by decide
  have hbytes : (mergeInto row update Buffer.new).value.buffer.bytes.length = 44 := by decide
  have htwo : (project row wanted .source Buffer.new).value.buffer.length = 2 := by decide
  have hone : (project row wanted .request Buffer.new).value.buffer.length = 1 := by decide
  refine ⟨hmerged.mergeAppend.trans ?_, hmerged.update, hmerged.mergedFieldCount.trans ?_,
    (hmerged.mergedRecordSize ?_).trans ?_, hrefused.2 rfl _ List.mem_cons_self,
    hstored.projectKept.trans ?_, (hstored.source rfl).2.trans ?_, hasked.projectKept.trans ?_,
    hasked.request rfl⟩
  · rw [hfields]
    decide
  · rw [hfields]
    rfl
  · rw [hbytes]
    decide
  · rw [hbytes]
    rfl
  · rw [htwo]
    rfl
  · rw [htwo]
    decide
  · rw [hone]
    rfl

end FieldRecords
