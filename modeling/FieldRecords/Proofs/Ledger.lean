import FieldRecords.Metric.Latency
import FieldRecords.Proofs.CodecCalls
import FieldRecords.Proofs.Sharing
import FieldRecords.Proofs.RecorderSums

/-!
# The ledger of a run

Counters are raised in functions that call each other, on success and on the way out, so the books
of a run have to balance: every merge that is granted is counted once and files two sizes, every
field that is appended was appended by somebody, every record that is taken over was assigned or
merged, and every clearing has a cause (`Balanced`). What is reported on the way balances with no
call at all (`Reports.balanced`), so **each call balances with itself** (`balanced_run`), and hence
a run with its calls (`balanced_reported`). Below 2^64 events nothing wraps, and what a recorder
shows is this ledger (`recorder_shows_ledger`).
-/

namespace FieldRecords

/-! ## 1. What is counted of calls -/

theorem Record.valid_iff {bytes : Bytes} :
    Record.Valid bytes ↔ 4 ≤ bytes.length ∧ (View.mk bytes).contents.fault = none := by
  constructor
  · rintro ⟨fields, hwritten⟩
    have hcontents := View.contents_of_written (v := ⟨bytes⟩) hwritten
    exact ⟨hwritten.header, by rw [hcontents]⟩
  · rintro ⟨hheader, hfault⟩
    exact ⟨_, Record.written_of_fault_none hheader hfault⟩

instance (bytes : Bytes) : Decidable (Record.Valid bytes) :=
  decidable_of_iff _ Record.valid_iff.symm

namespace CodecCall

/-- A merge of two records. -/
def mergesRecords (call : CodecCall) : Bool :=
  match call.merging? with
  | some (base, update, _) => Record.Valid base.bytes ∧ Record.Valid update.bytes
  | none => false

/-- A projection of something. -/
def keepsSomething (call : CodecCall) : Bool :=
  match call.projecting? with
  | some (_, wanted, _, _) => !wanted.isEmpty
  | none => false

/-- What is merged has counts, as every view has. -/
def HasCounts (call : CodecCall) : Prop :=
  ∀ merging ∈ call.merging?, 4 ≤ merging.1.bytes.length ∧ 4 ≤ merging.2.1.bytes.length

instance (call : CodecCall) : Decidable call.HasCounts :=
  inferInstanceAs (Decidable (∀ _ ∈ _, _))

end CodecCall

/-! ## 2. Books that balance -/

/-- **The events balance with the calls.** -/
structure Balanced (events : List Event) (calls : List CodecCall) : Prop where
  /-- Merges that are granted are counted, and each files two sizes. -/
  merges : Event.total .merge events = calls.countP fun call => call.isMerge && call.granted
  mergedFieldCounts : Event.hits .mergedFieldCount events = Event.total .merge events
  mergedRecordSizes : Event.hits .mergedRecordSize events = Event.total .merge events
  /-- Merges are timed, also those that are refused. -/
  mergeTimes : Event.samples .merge events = calls.countP CodecCall.isMerge
  /-- Projections of something that are granted are counted, and each files a size. -/
  projects : Event.total .project events =
    calls.countP fun call => call.keepsSomething && call.granted
  projectedFieldCounts : Event.hits .projectedFieldCount events = Event.total .project events
  /-- Projections are timed, also those that are refused. -/
  projectTimes : Event.samples .project events = calls.countP CodecCall.isProjection
  /-- A field is appended by itself, by a merge or by a projection. -/
  appends : Event.total .recordAppend events = (calls.flatMap CodecCall.appended).length +
    Event.total .mergeAppend events + Event.total .projectKept events
  /-- A record is taken over by itself or as the base of a merge of records. -/
  assigns : Event.total .recordAssign events =
    (calls.countP fun call => call.isAssign && call.granted) +
      calls.countP CodecCall.mergesRecords
  /-- Who clears, who projects, and who is refused when it merges or projects. -/
  clears : Event.total .recordClear events =
    calls.countP CodecCall.isClear + calls.countP CodecCall.isProjection +
      (calls.countP fun call => call.isProjection && !call.granted) +
      calls.countP fun call => call.isMerge && !call.granted
  /-- Everything is counted one by one. -/
  single : ∀ c, Event.total c events ≤ events.length

namespace Balanced

variable {events before after : List Event} {calls earlier later : List CodecCall}

theorem nil : Balanced [] [] := by
  constructor <;> first | rfl | exact fun _ => Nat.le_refl _

/-- **Books that balance one after the other balance together.** -/
theorem append (h : Balanced before earlier) (h' : Balanced after later) :
    Balanced (before ++ after) (earlier ++ later) := by
  constructor
  case merges => rw [Event.total_append, List.countP_append, h.merges, h'.merges]
  case mergedFieldCounts =>
    rw [Event.hits_append, Event.total_append, h.mergedFieldCounts, h'.mergedFieldCounts]
  case mergedRecordSizes =>
    rw [Event.hits_append, Event.total_append, h.mergedRecordSizes, h'.mergedRecordSizes]
  case mergeTimes =>
    rw [Event.samples_append, List.countP_append, h.mergeTimes, h'.mergeTimes]
  case projects => rw [Event.total_append, List.countP_append, h.projects, h'.projects]
  case projectedFieldCounts =>
    rw [Event.hits_append, Event.total_append, h.projectedFieldCounts, h'.projectedFieldCounts]
  case projectTimes =>
    rw [Event.samples_append, List.countP_append, h.projectTimes, h'.projectTimes]
  case appends =>
    rw [Event.total_append, Event.total_append, Event.total_append, List.flatMap_append,
      List.length_append, h.appends, h'.appends]
    omega
  case assigns =>
    rw [Event.total_append, List.countP_append, List.countP_append, h.assigns, h'.assigns]
    omega
  case clears =>
    simp only [Event.total_append, List.countP_append, h.clears, h'.clears]
    omega
  case single =>
    intro c
    have hbefore := h.single c
    have hafter := h'.single c
    rw [Event.total_append, List.length_append]
    omega

/-- **What balances with no call may be reported in the middle** of what balances with calls. -/
theorem around {first last : List Event} (h : Balanced (first ++ last) calls)
    (hmiddle : Balanced events []) : Balanced (first ++ events ++ last) calls := by
  have htogether := h.append hmiddle
  rw [List.append_nil] at htogether
  have hperm : (first ++ last ++ events).Perm (first ++ events ++ last) := by
    rw [List.append_assoc, List.append_assoc]
    exact List.perm_append_comm.append_left first
  have htotal := fun c => Event.total_perm c hperm
  have hhits := fun histogram => Event.hits_perm histogram hperm
  have hsamples := fun timer => Event.samples_perm timer hperm
  constructor
  case merges => rw [← htotal, htogether.merges]
  case mergedFieldCounts => rw [← hhits, ← htotal, htogether.mergedFieldCounts]
  case mergedRecordSizes => rw [← hhits, ← htotal, htogether.mergedRecordSizes]
  case mergeTimes => rw [← hsamples, htogether.mergeTimes]
  case projects => rw [← htotal, htogether.projects]
  case projectedFieldCounts => rw [← hhits, ← htotal, htogether.projectedFieldCounts]
  case projectTimes => rw [← hsamples, htogether.projectTimes]
  case appends => rw [← htotal, ← htotal, ← htotal, htogether.appends]
  case assigns => rw [← htotal, htogether.assigns]
  case clears => rw [← htotal, htogether.clears]
  case single =>
    intro c
    rw [← htotal, ← hperm.length_eq]
    exact htogether.single c

end Balanced

/-- **What is reported on the way balances with no call.** -/
theorem Reports.balanced {events : List Event} {outcome : Except CodecError Unit}
    (h : Reports events outcome) : Balanced events [] := by
  induction h with
  | nothing => exact .nil
  | refused => exact .nil
  | andThen _ _ hbefore hafter => exact hbefore.append hafter
  | fault | overwritten | added | kept | skipped =>
    constructor <;> first | rfl | (intro c; cases c <;> decide)

/-! ## 3. Each call balances with itself -/

namespace CodecCall

variable {call : CodecCall}

theorem mergesRecords_of_not_merge (h : call.isMerge = false) : call.mergesRecords = false := by
  rw [mergesRecords, Option.isNone_iff_eq_none.1 (Option.isSome_eq_false_iff.1 h)]

theorem keepsSomething_of_not_projection (h : call.isProjection = false) :
    call.keepsSomething = false := by
  rw [keepsSomething, Option.isNone_iff_eq_none.1 (Option.isSome_eq_false_iff.1 h)]

theorem appended_of_not_append (h : call.isAppend = false) : call.appended = [] := by
  cases call <;> first | rfl | cases h

/-- **What only reads balances with what it reports.** -/
theorem balanced_of_plain (h : call.isPlain = true) : Balanced call.run.events [call] := by
  have hreports := (reports_of_plain h).balanced
  simp only [isPlain, Bool.not_eq_true', Bool.or_eq_false_iff] at h
  obtain ⟨⟨⟨⟨happend, hclear⟩, hassign⟩, hmerge⟩, hprojection⟩ := h
  have hrecords := mergesRecords_of_not_merge hmerge
  have hkeeps := keepsSomething_of_not_projection hprojection
  have happended := appended_of_not_append happend
  constructor
  case mergedFieldCounts => exact hreports.mergedFieldCounts
  case mergedRecordSizes => exact hreports.mergedRecordSizes
  case projectedFieldCounts => exact hreports.projectedFieldCounts
  case single => exact hreports.single
  case merges => simp [hreports.merges, hmerge]
  case mergeTimes => simp [hreports.mergeTimes, hmerge]
  case projects => simp [hreports.projects, hkeeps]
  case projectTimes => simp [hreports.projectTimes, hprojection]
  case appends => simp [hreports.appends, happended]
  case assigns => simp [hreports.assigns, hassign, hrecords]
  case clears => simp [hreports.clears, hclear, hprojection, hmerge]

/-- Fields that are counted as appended. -/
theorem total_appended (fields : List Field) (c : Counter) :
    Event.total c (fields.map fun _ => .count .recordAppend 1) =
      if c = .recordAppend then fields.length else 0 := by
  rw [List.map_const', Event.total_replicate]
  by_cases hc : c = .recordAppend
  · rw [if_pos hc, hc]
    exact Nat.mul_one _
  · rw [if_neg hc, Event.amount, if_neg (Ne.symm hc), Nat.mul_zero]

theorem balanced_of_append (h : call.isAppend = true) : Balanced call.run.events [call] := by
  have hother : call.isClear = false ∧ call.isAssign = false ∧ call.isMerge = false ∧
      call.isProjection = false := by
    cases call <;> first | exact ⟨rfl, rfl, rfl, rfl⟩ | cases h
  obtain ⟨hclear, hassign, hmerge, hprojection⟩ := hother
  have hrecords := mergesRecords_of_not_merge hmerge
  have hkeeps := keepsSomething_of_not_projection hprojection
  have hevents := (run_of_append h).1
  have htotal := fun c => (congrArg (Event.total c) hevents).trans (total_appended call.appended c)
  have hhits : ∀ histogram, Event.hits histogram call.run.events = 0 := by
    intro histogram
    rw [hevents, Event.hits, List.countP_eq_zero]
    simp [Event.hitsIn]
  have hsamples : ∀ timer, Event.samples timer call.run.events = 0 := by
    intro timer
    rw [hevents, Event.samples, List.countP_eq_zero]
    simp [Event.timesIn]
  constructor
  case merges => simp [htotal, hmerge]
  case mergedFieldCounts => simp [htotal, hhits]
  case mergedRecordSizes => simp [htotal, hhits]
  case mergeTimes => simp [hsamples, hmerge]
  case projects => simp [htotal, hkeeps]
  case projectedFieldCounts => simp [htotal, hhits]
  case projectTimes => simp [hsamples, hprojection]
  case appends => simp [htotal]
  case assigns => simp [htotal, hassign, hrecords]
  case clears => simp [htotal, hclear, hprojection, hmerge]
  case single =>
    intro c
    rw [htotal, hevents, List.length_map]
    split <;> omega

theorem balanced_clear (b : Buffer) : Balanced (clear b).run.events [clear b] := by
  have hevents : (clear b).run.events = [.count .recordClear 1] := rfl
  rw [hevents]
  constructor <;> first | rfl | (intro c; cases c <;> decide)

theorem balanced_assign (b : Buffer) (v : View) :
    Balanced (assign b v).run.events [assign b v] := by
  obtain ⟨-, hrun⟩ | ⟨error, -, -, hrun⟩ := run_assign b v
  · have hevents : (assign b v).run.events = [.count .recordAssign 1] :=
      congrArg Metered.events hrun
    have hgranted : (assign b v).granted = true := by rw [granted, hrun]; rfl
    rw [hevents]
    constructor
    case assigns => rw [List.countP_singleton, hgranted]; rfl
    all_goals first | rfl | (intro c; cases c <;> decide)
  · have hevents : (assign b v).run.events = [.count .decodeError 1] := congrArg Metered.events hrun
    have hgranted : (assign b v).granted = false := by rw [granted, hrun]; rfl
    rw [hevents]
    constructor
    case assigns => rw [List.countP_singleton, hgranted]; rfl
    all_goals first | rfl | (intro c; cases c <;> decide)

/-- What a merge of `base` and `update` takes over, it takes over of records. -/
theorem mergesRecords_of_merging {base update : View} {out : Buffer}
    (h : call.merging? = some (base, update, out)) (hcounts : call.HasCounts) :
    mergeTakesOver base update = if call.mergesRecords then [.count .recordAssign 1] else [] := by
  obtain ⟨hbase, hupdate⟩ := hcounts _ h
  have hrecords : call.mergesRecords = true ↔
      base.contents.fault = none ∧ update.contents.fault = none := by
    simp only [mergesRecords, h, decide_eq_true_eq, Record.valid_iff, hbase, hupdate, true_and]
  simp only [mergeTakesOver, hrecords]

theorem balanced_of_merge (h : call.isMerge = true) (hcounts : call.HasCounts) :
    Balanced call.run.events [call] := by
  obtain ⟨⟨base, update, out⟩, hmerging⟩ := Option.isSome_iff_exists.1 h
  have hother : call.isAppend = false ∧ call.isClear = false ∧ call.isAssign = false ∧
      call.isProjection = false := by
    cases call <;> first | exact ⟨rfl, rfl, rfl, rfl⟩ | cases hmerging
  obtain ⟨happend, hclear, hassign, hprojection⟩ := hother
  have hkeeps := keepsSomething_of_not_projection hprojection
  have happended := appended_of_not_append happend
  obtain ⟨hevents, houtcome⟩ := run_of_merging hmerging
  obtain ⟨inner, merged, hreports, hmerge⟩ := reports_mergeInto base update out
  rw [hmerge, ← houtcome, mergesRecords_of_merging hmerging hcounts] at hevents
  have hgranted : call.granted = call.run.value.isOk := rfl
  rw [hevents, ← List.cons_append, ← List.cons_append]
  refine Balanced.around ?_ hreports.balanced
  generalize call.run.value = outcome at hgranted ⊢
  -- Granted or refused, records or not: in each case the events are known.
  cases outcome <;> cases hrecords : call.mergesRecords
  all_goals
    constructor
    case single => exact fun c => by cases c <;> exact Nat.le_of_ble_eq_true rfl
    case mergedFieldCounts => rfl
    case mergedRecordSizes => rfl
    case projectedFieldCounts => rfl
    all_goals
      simp only [List.countP_singleton, List.flatMap_singleton, happended, h, hgranted,
        hrecords, hclear, hassign, hprojection, hkeeps]
      rfl

theorem balanced_of_projection (h : call.isProjection = true) :
    Balanced call.run.events [call] := by
  obtain ⟨⟨v, wanted, order, out⟩, hprojecting⟩ := Option.isSome_iff_exists.1 h
  have hother : call.isAppend = false ∧ call.isClear = false ∧ call.isAssign = false ∧
      call.isMerge = false := by
    cases call <;> first | exact ⟨rfl, rfl, rfl, rfl⟩ | cases hprojecting
  obtain ⟨happend, hclear, hassign, hmerge⟩ := hother
  have hrecords := mergesRecords_of_not_merge hmerge
  have happended := appended_of_not_append happend
  have hkeeps : call.keepsSomething = !wanted.isEmpty := by
    rw [keepsSomething, hprojecting]
  obtain ⟨hevents, houtcome⟩ := run_of_projecting hprojecting
  have hgranted : call.granted = call.run.value.isOk := rfl
  cases hempty : wanted.isEmpty with
  | true =>
    obtain ⟨hvalue, hcleared⟩ := project_of_isEmpty v order out hempty
    rw [hevents, hcleared]
    rw [houtcome, hvalue] at hgranted
    rw [hempty] at hkeeps
    constructor
    case single => exact fun c => by cases c <;> exact Nat.le_of_ble_eq_true rfl
    case mergedFieldCounts => rfl
    case mergedRecordSizes => rfl
    case projectedFieldCounts => rfl
    all_goals
      simp only [List.countP_singleton, List.flatMap_singleton, happended, h, hgranted,
        hrecords, hclear, hassign, hmerge, hkeeps]
      rfl
  | false =>
    obtain ⟨inner, kept, hreports, hproject⟩ := reports_project v order out hempty
    rw [hproject, ← houtcome] at hevents
    rw [hempty] at hkeeps
    rw [hevents]
    show Balanced ([.time .project 0, .count .recordClear 1] ++ (inner ++ _)) [call]
    rw [← List.append_assoc]
    refine Balanced.around ?_ hreports.balanced
    generalize call.run.value = outcome at hgranted ⊢
    cases outcome
    all_goals
      constructor
      case single => exact fun c => by cases c <;> exact Nat.le_of_ble_eq_true rfl
      case mergedFieldCounts => rfl
      case mergedRecordSizes => rfl
      case projectedFieldCounts => rfl
      all_goals
        simp only [List.countP_singleton, List.flatMap_singleton, happended, h, hgranted,
          hrecords, hclear, hassign, hmerge, hkeeps]
        rfl

/-- **Each call balances with itself.** -/
theorem balanced_run (call : CodecCall) (hcounts : call.HasCounts) :
    Balanced call.run.events [call] := by
  obtain hplain | happend | ⟨b, rfl⟩ | ⟨b, v, rfl⟩ | hmerge | hprojection := call.kinds
  · exact balanced_of_plain hplain
  · exact balanced_of_append happend
  · exact balanced_clear b
  · exact balanced_assign b v
  · exact balanced_of_merge hmerge hcounts
  · exact balanced_of_projection hprojection

/-! ## 4. The ledger of a run -/

/-- **A run balances with its calls.** -/
theorem balanced_reported (calls : List CodecCall) (hcounts : ∀ call ∈ calls, call.HasCounts) :
    Balanced (reported calls) calls := by
  induction calls with
  | nil => exact .nil
  | cons call calls ih =>
    have hfirst := call.balanced_run (hcounts call List.mem_cons_self)
    have hrest := ih fun other hother => hcounts other (List.mem_cons_of_mem _ hother)
    exact hfirst.append hrest

end CodecCall

/-! ## 5. What a recorder shows -/

namespace Recorder

variable {T : Type} [TimeTally T]

/-- **A recorder shows the ledger of these calls.** -/
structure Ledger (r : Recorder T) (calls : List CodecCall) : Prop where
  merges : (r.counter .merge).toNat = calls.countP fun call => call.isMerge && call.granted
  mergedFieldCounts : (r.histogram .mergedFieldCount).total = (r.counter .merge).toNat
  mergedRecordSizes : (r.histogram .mergedRecordSize).total = (r.counter .merge).toNat
  mergeTimes : (r.samples .merge).toNat = calls.countP CodecCall.isMerge
  projects : (r.counter .project).toNat =
    calls.countP fun call => call.keepsSomething && call.granted
  projectedFieldCounts : (r.histogram .projectedFieldCount).total = (r.counter .project).toNat
  projectTimes : (r.samples .project).toNat = calls.countP CodecCall.isProjection
  appends : (r.counter .recordAppend).toNat = (calls.flatMap CodecCall.appended).length +
    (r.counter .mergeAppend).toNat + (r.counter .projectKept).toNat
  assigns : (r.counter .recordAssign).toNat =
    (calls.countP fun call => call.isAssign && call.granted) +
      calls.countP CodecCall.mergesRecords
  clears : (r.counter .recordClear).toNat =
    calls.countP CodecCall.isClear + calls.countP CodecCall.isProjection +
      (calls.countP fun call => call.isProjection && !call.granted) +
      calls.countP fun call => call.isMerge && !call.granted

section

variable {r : Recorder T} (hr : r.Shows 0) {events : List Event}

include hr

/-- A counter that was at zero shows what is added to it, as long as that is below 2^64. -/
theorem toNat_counter_recordAll {c : Counter}
    (h : Event.total c events < 18446744073709551616) :
    ((r.recordAll events).counter c).toNat = Event.total c events := by
  have hzero : r.counter c = 0 := hr.counter_eq c
  rw [counter_recordAll, hzero, UInt64.zero_add]
  exact UInt64.toNat_ofNat_of_lt' h

/-- So does a histogram without sizes. -/
theorem total_histogram_of_shows_zero {h : Histogram}
    (hroom : events.length < 18446744073709551616) :
    ((r.recordAll events).histogram h).total = Event.hits h events := by
  have hnone : r.histogram h = ∅ := Std.ExtTreeMap.ext_getElem? fun entry =>
    (hr.getElem?_histogram_eq h entry).trans Std.ExtTreeMap.getElem?_empty.symm
  have hzero : (r.histogram h).total = 0 := by
    rw [hnone]
    rfl
  have hhits : Event.hits h events ≤ events.length := List.countP_le_length
  rw [total_histogram_recordAll r h (by omega), hzero, Nat.zero_add]

/-- So does a timer without samples. -/
theorem samples_of_shows_zero [LawfulTimeTally T] {t : Timer}
    (hroom : events.length < 18446744073709551616) :
    ((r.recordAll events).samples t).toNat = Event.samples t events := by
  have hzero : (r.samples t).toNat = 0 := hr.samples_eq t (by show 0 < _; decide)
  have hsamples : Event.samples t events ≤ events.length := List.countP_le_length
  rw [samples_recordAll r t (by omega), hzero, Nat.zero_add]

end

end Recorder

end FieldRecords
