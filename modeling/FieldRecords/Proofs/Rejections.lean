import FieldRecords.Metric.Latency
import FieldRecords.Proofs.CodecCalls
import FieldRecords.Proofs.Sharing
import FieldRecords.Proofs.Tallies
import FieldRecords.Proofs.Verdicts

/-!
# Rejections are counted once

A merge looks at its update twice, a projection in asked order looks at the record and at its own
output once per name, lookups stop early, and a walk can be stepped after it met a fault. Still a
fault of the bytes is counted where the call ends for it, and nowhere else: **whoever reports as
said counts a rejection if it ends with one** (`Reports.total_decodeError`), so every call of the
codec does (`CodecCall.total_decodeError`), and every operation of a row store, whatever the store
replies (`Call.ends_report`). Stepping counts the faults that it yields, and it yields one at most
(`Walk.total_stepped`, `Walk.length_faults_le`).

So in a run the counter is raised by the number of calls that end with a rejection
(`rejections_are_counted_once`).
-/

namespace FieldRecords

/-! ## 1. Rejections -/

/-- The bytes were refused because they are no record. -/
def Answer.isRejection {α : Type} : Except CodecError α → Bool
  | .error error => error.isMalformed
  | .ok _ => false

theorem Answer.isRejection_map {α β : Type} (answer : Except CodecError α) (f : α → β) :
    Answer.isRejection (answer.map f) = Answer.isRejection answer := by
  cases answer <;> rfl

/-- **Whoever reports as said counts a rejection if it ends with one**, and else nothing. -/
theorem Reports.total_decodeError {events : List Event} {outcome : Except CodecError Unit}
    (h : Reports events outcome) :
    Event.total .decodeError events = (Answer.isRejection outcome).toNat := by
  induction h with
  | refused h => rw [Answer.isRejection, h]; rfl
  | fault h => rw [Answer.isRejection, h]; rfl
  | andThen hbefore hafter ihbefore ihafter =>
    rw [Event.total_append, ihbefore, ihafter]
    exact Nat.zero_add _
  | nothing | overwritten | added | kept | skipped => rfl

theorem Checked.Reports.total_decodeError {α : Type} {x : Checked α} (h : x.Reports) :
    Event.total .decodeError x.events = (Answer.isRejection x.answer).toNat := by
  rw [FieldRecords.Reports.total_decodeError h, Checked.outcome, Answer.isRejection_map]

namespace CodecCall

/-- The call was refused because bytes are no record. -/
def isRejected (call : CodecCall) : Bool := Answer.isRejection call.run.value

theorem total_decodeError_mergeInto (base update : View) (out : Buffer) :
    Event.total .decodeError (FieldRecords.mergeInto base update out).events =
      (Answer.isRejection (FieldRecords.mergeInto base update out).value.outcome).toNat := by
  obtain ⟨inner, merged, hreports, hevents⟩ := reports_mergeInto base update out
  rw [hevents, ← hreports.total_decodeError]
  have htakes : Event.total .decodeError (mergeTakesOver base update) = 0 := by
    unfold mergeTakesOver
    split <;> rfl
  have hconclusion : ∀ outcome, Event.total .decodeError (mergeConclusion merged outcome) = 0 := by
    intro outcome
    cases outcome <;> rfl
  rw [Event.total, Event.total_append, Event.total_append, htakes, hconclusion]
  simp only [Event.amount, Nat.zero_add, Nat.add_zero]

theorem total_decodeError_project (v : View) (wanted : Selection) (order : ProjectionOrder)
    (out : Buffer) :
    Event.total .decodeError (FieldRecords.project v wanted order out).events =
      (Answer.isRejection (FieldRecords.project v wanted order out).value.outcome).toNat := by
  cases hempty : wanted.isEmpty with
  | true =>
    obtain ⟨houtcome, hevents⟩ := project_of_isEmpty v order out hempty
    rw [houtcome, hevents]
    rfl
  | false =>
    obtain ⟨inner, kept, hreports, hevents⟩ := reports_project v order out hempty
    rw [hevents, ← hreports.total_decodeError]
    have hconclusion :
        ∀ outcome, Event.total .decodeError (projectConclusion kept outcome) = 0 := by
      intro outcome
      cases outcome <;> rfl
    rw [Event.total, Event.total, Event.total_append, hconclusion]
    simp only [Event.amount, Nat.zero_add, Nat.add_zero, reduceCtorEq, if_false]

/-- **Every call of the codec counts a rejection if it is rejected**, and else none. -/
theorem total_decodeError (call : CodecCall) :
    Event.total .decodeError call.run.events = call.isRejected.toNat := by
  unfold isRejected
  obtain hplain | happend | ⟨b, rfl⟩ | ⟨b, v, rfl⟩ | hmerge | hprojection := call.kinds
  · exact (reports_of_plain hplain).total_decodeError
  · obtain ⟨hevents, hrefused⟩ := run_of_append happend
    have hnone : Answer.isRejection call.run.value = false := by
      cases hvalue : call.run.value with
      | ok u => rfl
      | error error => exact hrefused error hvalue
    rw [hevents, hnone, List.map_const', Event.total_replicate]
    rfl
  · rfl
  · obtain ⟨-, hrun⟩ | ⟨error, -, hmalformed, hrun⟩ := run_assign b v
    · rw [hrun]
      rfl
    · rw [hrun, Answer.isRejection, hmalformed]
      rfl
  · obtain ⟨⟨base, update, out⟩, hmerging⟩ := Option.isSome_iff_exists.1 hmerge
    obtain ⟨hevents, houtcome⟩ := run_of_merging hmerging
    rw [hevents, houtcome]
    exact total_decodeError_mergeInto base update out
  · obtain ⟨⟨v, wanted, order, out⟩, hprojecting⟩ := Option.isSome_iff_exists.1 hprojection
    obtain ⟨hevents, houtcome⟩ := run_of_projecting hprojecting
    rw [hevents, houtcome]
    exact total_decodeError_project v wanted order out

end CodecCall

/-! ## 2. Stepping -/

namespace Walk

/-- A walk that is stepped so many times, with what that reports. -/
def stepped : Nat → Walk → Metered (List Step)
  | 0, _ => pure []
  | n + 1, w => do
    let (step, w) ← w.next
    let steps ← stepped n w
    return step :: steps

theorem value_stepped (n : Nat) (w : Walk) : (w.stepped n).value = w.yields n := by
  induction n generalizing w with
  | zero => rfl
  | succ n ih =>
    rw [stepped, yields, ← ih]
    rfl

/-- One step counts the fault that it meets. -/
theorem total_next (w : Walk) :
    Event.total .decodeError w.next.events = w.next.value.1.fault?.toList.length := by
  obtain ⟨-, w', hnext⟩ | ⟨error, -, hnext⟩ | ⟨e, w', -, -, -, -, hnext⟩ := w.next_cases
  all_goals
    rw [hnext]
    rfl

theorem faults_succ (n : Nat) (w : Walk) :
    w.faults (n + 1) = w.next.value.1.fault?.toList ++ w.next.value.2.faults n := by
  rw [faults, yields, List.filterMap_cons]
  cases w.next.value.1.fault? <;> rfl

/-- **Stepping counts the faults that it yields.** -/
theorem total_stepped (n : Nat) (w : Walk) :
    Event.total .decodeError (w.stepped n).events = (w.faults n).length := by
  induction n generalizing w with
  | zero => rfl
  | succ n ih =>
    have hevents : (w.stepped (n + 1)).events =
        w.next.events ++ (w.next.value.2.stepped n).events := by
      rw [stepped, Metered.events_bind, Metered.events_bind, Metered.events_pure, List.append_nil]
    rw [hevents, Event.total_append, ih, total_next, faults_succ, List.length_append]

/-- A walk that is over yields no fault. -/
theorem faults_of_finished {w : Walk} (h : w.finished = true) (n : Nat) : w.faults n = [] := by
  rw [faults, yields_of_finished h, List.filterMap_eq_nil_iff]
  intro step hstep
  rw [List.eq_of_mem_replicate hstep]
  rfl

/-- **However often a walk is stepped, it yields one fault at most.** -/
theorem length_faults_le (n : Nat) (w : Walk) : (w.faults n).length ≤ 1 := by
  induction n generalizing w with
  | zero => exact Nat.zero_le 1
  | succ n ih =>
    rw [faults_succ, List.length_append]
    cases hstep : w.next.value.1 with
    | entry e => exact Nat.le_trans (Nat.le_of_eq (Nat.zero_add _)) (ih w.next.value.2)
    | done => exact Nat.le_trans (Nat.le_of_eq (Nat.zero_add _)) (ih w.next.value.2)
    | fault error =>
      have hover := finished_next (w := w) (by simp [hstep])
      rw [faults_of_finished hover]
      exact Nat.le_refl 1

end Walk

/-! ## 3. Filling buffers -/

namespace RowStore

/-- **Filling a buffer counts a rejection if it is rejected.** -/
theorem total_fillRow (stored : Bytes) (wanted : Option Selection) (order : ProjectionOrder)
    (out : Buffer) :
    Event.total .decodeError (fillRow stored wanted order out).events =
      (Answer.isRejection (fillRow stored wanted order out).value.outcome).toNat := by
  have hview := (View.reports_ofBytes stored).total_decodeError
  unfold fillRow
  rw [Metered.events_bind, Metered.value_bind, Event.total_append, Checked.value_run]
  change Event.total .decodeError (View.ofBytes stored).events + _ = _
  rw [hview]
  cases (View.ofBytes stored).answer with
  | error error => rfl
  | ok v =>
    refine (Nat.zero_add _).trans ?_
    cases wanted with
    | some wanted => exact CodecCall.total_decodeError_project v wanted order out
    | none =>
      have hassign := (CodecCall.assign out v).total_decodeError
      rw [CodecCall.isRejected, CodecCall.run, Checked.events_settled, Checked.value_settled,
        Checked.outcome, Answer.isRejection_map] at hassign
      rw [Metered.events_bind, Metered.value_bind, Event.total_append, Checked.value_run]
      change Event.total .decodeError (out.assign v).events + _ = _
      rw [hassign]
      cases (out.assign v).answer <;> rfl

/-- Filling buffers goes on with the next row unless one is rejected. -/
theorem total_fillRows (wanted : Option Selection) (order : ProjectionOrder)
    (pairs : List (Bytes × Bytes)) (old : List Buffer) :
    Event.total .decodeError (fillRows wanted order pairs old).events =
      (Answer.isRejection (fillRows wanted order pairs old).value.2).toNat := by
  induction pairs generalizing old with
  | nil => rfl
  | cons pair pairs ih =>
    have hfirst := total_fillRow pair.2 wanted order (old.head?.getD Buffer.new)
    unfold fillRows
    rw [Metered.events_bind, Metered.value_bind, Event.total_append, hfirst]
    cases (fillRow pair.2 wanted order (old.head?.getD Buffer.new)).value.outcome with
    | error error => rfl
    | ok u =>
      refine (Nat.zero_add _).trans ?_
      rw [Metered.events_bind, Event.total_append, ih old.tail]
      rfl

end RowStore

/-! ## 4. Operations on rows -/

/-- The row was refused because bytes are no record. -/
def Reply.isRejection (reply : Reply) : Bool :=
  reply.status = .error && reply.warnings.any fun w => w.error.isMalformed

/-- However its requests are answered, work ends so. -/
def Program.Ends {α : Type} (ends : α → Prop) : Program α → Prop
  | done a => ends a
  | call _ resume => ∀ reply, (resume reply).Ends ends

namespace Program

variable {α β : Type} {ends : α → Prop}

theorem Ends.bind {p : Program α} (h : p.Ends ends) {last : β → Prop} {next : α → Program β}
    (hnext : ∀ a, ends a → (next a).Ends last) : (p >>= next).Ends last := by
  change (p.andThen next).Ends last
  induction p with
  | done a => exact hnext a h
  | call request resume ih => exact fun reply => ih reply (h reply)

theorem ends_ask (request : Request) : (ask request).Ends fun _ => True := fun _ => trivial

/-- So it ends when it is run on a store. -/
theorem Ends.run {σ : Type} [KeyValueStore σ] {p : Program α} (h : p.Ends ends) (s : σ) :
    ends (p.run s).1 := by
  induction p generalizing s with
  | done a => exact h
  | call request resume ih => exact ih _ (h _) _

end Program

namespace RowStore

variable {α : Type} (client : RowStore)

/-- An operation counts a rejection if that is how it ends. -/
def Outcome.CountsRejection (o : Metered (Outcome α)) : Prop :=
  Event.total .decodeError o.events = (o.value.reply fun _ => []).isRejection.toNat

/-- It ends with a rejection if that is the answer it ends with. -/
theorem isRejection_conclude (key : Bytes) (answer : Except CodecError Unit) (result : α)
    (rows : α → List Bytes) :
    ((client.conclude key answer result).reply rows).isRejection = Answer.isRejection answer := by
  cases answer with
  | ok u => rfl
  | error error => exact Bool.or_false _

theorem counts_conclude {events : List Event} {answer : Except CodecError Unit}
    (h : Event.total .decodeError events = (Answer.isRejection answer).toNat) (key : Bytes)
    (result : α) : Outcome.CountsRejection ⟨client.conclude key answer result, events⟩ := by
  rw [Outcome.CountsRejection, isRejection_conclude]
  exact h

theorem ends_insert (key : Bytes) (values : View) :
    (client.insert key values).Ends Outcome.CountsRejection := by
  have hvalidate := values.reports_validate.total_decodeError
  unfold insert
  simp only [Checked.value_run]
  cases hanswer : values.validate.answer with
  | ok u =>
    rw [hanswer] at hvalidate
    exact (Program.ends_ask _).bind fun _ _ => client.counts_conclude hvalidate key ()
  | error error =>
    rw [hanswer] at hvalidate
    exact client.counts_conclude hvalidate key ()

theorem ends_delete (key : Bytes) : (client.delete key).Ends Outcome.CountsRejection := by
  refine (Program.ends_ask _).bind fun deleted _ => ?_
  cases deleted <;> rfl

theorem ends_read (key : Bytes) (wanted : Option Selection) (result : Buffer) :
    (client.read key wanted result).Ends Outcome.CountsRejection := by
  refine (Program.ends_ask _).bind fun found _ => ?_
  cases found with
  | none => rfl
  | some stored =>
    refine counts_conclude _ ?_ key _
    rw [← total_fillRow, Event.total_append]
    refine (Nat.zero_add _).trans ?_
    exact Event.total_append _ _ _

theorem ends_scan (key : Bytes) (count : Nat) (wanted : Option Selection) (result : List Buffer) :
    (client.scan key count wanted result).Ends Outcome.CountsRejection := by
  refine (Program.ends_ask _).bind fun found _ => ?_
  cases found with
  | none => rfl
  | some pairs =>
    refine counts_conclude _ ?_ key _
    rw [← total_fillRows]
    exact Event.total_append _ _ []

/-- What an update does between reading and writing. -/
def mergeStored (stored : Bytes) (values : View) : Metered (Merger × Except CodecError View) := do
  match ← (View.ofBytes stored).run with
  | .ok base => client.merger.merge base values
  | .error error => return (client.merger, .error error)

theorem total_mergeStored (stored : Bytes) (values : View) :
    Event.total .decodeError (client.mergeStored stored values).events =
      (Answer.isRejection (client.mergeStored stored values).value.2).toNat := by
  have hview := (View.reports_ofBytes stored).total_decodeError
  unfold mergeStored
  rw [Metered.events_bind, Metered.value_bind, Event.total_append, Checked.value_run]
  change Event.total .decodeError (View.ofBytes stored).events + _ = _
  rw [hview]
  cases (View.ofBytes stored).answer with
  | error error => rfl
  | ok base =>
    have hmerge := (CodecCall.mergeBy client.merger base values).total_decodeError
    rw [CodecCall.isRejected, CodecCall.run, Checked.events_map, Checked.value_map,
      Answer.isRejection_map] at hmerge
    exact (Nat.zero_add _).trans hmerge

theorem ends_update (key : Bytes) (values : View) :
    (client.update key values).Ends Outcome.CountsRejection := by
  refine (Program.ends_ask _).bind fun found _ => ?_
  cases found with
  | none => rfl
  | some stored =>
    have hmerged := client.total_mergeStored stored values
    dsimp only
    split
    · rename_i row hanswer
      refine (Program.ends_ask _).bind fun _ _ => counts_conclude _ (hmerged.trans ?_) key ()
      exact congrArg (fun answer => (Answer.isRejection answer).toNat) hanswer
    · rename_i error hanswer
      refine counts_conclude _ (hmerged.trans ?_) key ()
      exact congrArg (fun answer => (Answer.isRejection answer).toNat) hanswer

/-- An operation as a program that says how its call was answered, and keeps what it reports. -/
def reporting (operation : Program (Metered (Outcome α))) (rows : α → List Bytes) :
    Program (Metered Reply) := do
  let outcome ← operation
  return (fun o => o.reply rows) <$> outcome

theorem ends_reporting {operation : Program (Metered (Outcome α))}
    (h : operation.Ends Outcome.CountsRejection) (rows : α → List Bytes) :
    (reporting operation rows).Ends fun reported =>
      Event.total .decodeError reported.events = reported.value.isRejection.toNat := by
  refine h.bind fun outcome houtcome => ?_
  show Event.total .decodeError ((fun o : Outcome α => o.reply rows) <$> outcome).events = _
  rw [Checked.events_map]
  exact houtcome

end RowStore

namespace Call

/-- **A call with what it reports.** -/
def report (client : RowStore) : Call → Program (Metered Reply)
  | insert key values => RowStore.reporting (client.insert key values) fun _ => []
  | update key values => RowStore.reporting (client.update key values) fun _ => []
  | delete key => RowStore.reporting (client.delete key) fun _ => []
  | read key wanted result =>
    RowStore.reporting (client.read key wanted result) fun b => [b.bytes]
  | scan key count wanted result =>
    RowStore.reporting (client.scan key count wanted result) fun bs => bs.map Buffer.bytes

/-- It is answered like the call, and leaves what the call leaves. -/
theorem run_report (client : RowStore) (m : MemoryStore) (call : Call) :
    ((call.report client).run m).1.value = (call.run client m).1 ∧
      ((call.report client).run m).2 = (call.run client m).2.2 := by
  cases call <;>
    simp only [report, RowStore.reporting, Program.run_bind, Program.run_pure, run,
      Checked.value_map, and_self]

/-- **Every operation on rows counts a rejection if it ends with one**, whatever the store replies
    on the way. -/
theorem ends_report (client : RowStore) (call : Call) :
    (call.report client).Ends fun reported =>
      Event.total .decodeError reported.events = reported.value.isRejection.toNat := by
  cases call with
  | insert key values => exact RowStore.ends_reporting (client.ends_insert key values) _
  | update key values => exact RowStore.ends_reporting (client.ends_update key values) _
  | delete key => exact RowStore.ends_reporting (client.ends_delete key) _
  | read key wanted result => exact RowStore.ends_reporting (client.ends_read key wanted result) _
  | scan key count wanted result =>
    exact RowStore.ends_reporting (client.ends_scan key count wanted result) _

end Call

/-! ## 5. Rows that are no records, and names that are found -/

namespace RowStore

variable {wanted : Option Selection} (order : ProjectionOrder)

/-- A record fills a buffer without a limit. -/
theorem outcome_fillRow_of_valid {stored : Bytes} (h : Record.Valid stored)
    (wanted : Option Selection) {out : Buffer} (hlimit : out.limit = Record.maxLength) :
    (fillRow stored wanted order out).value.outcome = .ok () := by
  obtain ⟨row, hrow⟩ := h
  rw [hrow.eq_encode]
  exact (holds_fillRow hrow.fits hlimit wanted order).outcome

/-- What is no record is rejected if something is wanted of it. -/
theorem isRejection_fillRow {stored : Bytes} (h : ¬ Record.Valid stored)
    (hwanted : ∀ names ∈ wanted, names.isEmpty = false) {out : Buffer}
    (hlimit : out.limit = Record.maxLength) :
    Answer.isRejection (fillRow stored wanted order out).value.outcome = true := by
  have hview := View.answer_ofBytes stored
  unfold fillRow
  rw [Metered.value_bind, Checked.value_run]
  by_cases hshort : stored.length < 4
  · rw [hview, if_pos hshort]
    rfl
  · have hheader : 4 ≤ (View.mk stored).bytes.length := Nat.le_of_not_lt hshort
    have hsettled := View.settledBy_fault hheader
    rw [hview, if_neg hshort]
    cases hfault : (View.mk stored).contents.fault with
    | none => exact absurd ⟨_, Record.written_of_fault_none hheader hfault⟩ h
    | some error =>
      have hmalformed : error.isMalformed = true :=
        Walk.isMalformed_fault (w := (View.mk stored).walk) hfault
      rw [hfault] at hsettled
      cases wanted with
      | some names =>
        have hproject := (hsettled.project names order out (hwanted names rfl) hlimit).eq_error
        exact (congrArg Answer.isRejection hproject).trans hmalformed
      | none =>
        show Answer.isRejection (Edited.outcome (Metered.value (_ >>= _))) = true
        rw [Metered.value_bind, Checked.value_run, (hsettled.assign out).eq_error]
        exact hmalformed

/-- **A scan that finds something that is no record is rejected**, however many there are. -/
theorem isRejection_fillRows {pairs : List (Bytes × Bytes)}
    (h : ∃ pair ∈ pairs, ¬ Record.Valid pair.2) (hwanted : ∀ names ∈ wanted, names.isEmpty = false)
    {old : List Buffer} (hlimit : ∀ b ∈ old, b.limit = Record.maxLength) :
    Answer.isRejection (fillRows wanted order pairs old).value.2 = true := by
  induction pairs generalizing old with
  | nil =>
    obtain ⟨pair, hpair, -⟩ := h
    cases hpair
  | cons first pairs ih =>
    have hfirst : (old.head?.getD Buffer.new).limit = Record.maxLength := by
      cases old with
      | nil => rfl
      | cons b old => exact hlimit b List.mem_cons_self
    have hrest : ∀ b ∈ old.tail, b.limit = Record.maxLength := fun b hb =>
      hlimit b (List.mem_of_mem_tail hb)
    unfold fillRows
    rw [Metered.value_bind]
    by_cases hvalid : Record.Valid first.2
    · rw [outcome_fillRow_of_valid order hvalid wanted hfirst]
      refine ih ?_ hrest
      obtain ⟨pair, hpair, hbroken⟩ := h
      rcases List.mem_cons.1 hpair with rfl | hpair
      · exact absurd hvalid hbroken
      · exact ⟨pair, hpair, hbroken⟩
    · have hrejected := isRejection_fillRow order hvalid hwanted hfirst
      revert hrejected
      cases (fillRow first.2 wanted order (old.head?.getD Buffer.new)).value.outcome with
      | ok u => exact fun h => absurd h Bool.false_ne_true
      | error error => exact id

end RowStore

/-- **A name that an entry has is looked up without meeting a fault**, wherever the fault is. -/
theorem CodecCall.lookup_not_rejected {v : View} {name : Bytes}
    (h : ∃ e ∈ v.walk.yielded (v.length + 1), e.name = name) :
    (get v name).isRejected = false ∧ (contains v name).isRejected = false := by
  rw [yielded_walk] at h
  obtain ⟨e, he, hname⟩ := h
  have hget := v.answer_get? name
  cases hlookup : Record.lookup? v.contents.fields name with
  | none =>
    rw [← Record.find?_entries_value 4, Option.map_eq_none_iff, List.find?_eq_none] at hlookup
    exact absurd (beq_iff_eq.2 hname) (hlookup e he)
  | some value =>
    rw [hlookup] at hget
    have hcontains : (v.contains name).answer = .ok true := by
      rw [View.contains, Checked.answer_bind, hget]
      rfl
    rw [isRejected, isRejected, run, run, Checked.value_settled, Checked.value_settled,
      Checked.outcome, Checked.outcome, hget, hcontains]
    exact ⟨rfl, rfl⟩

/-! ## 6. Runs -/

/-- What is done in a run, with all it is done to: a call of the codec, so many steps of a walk, and
    a call of a client on a store. -/
inductive Work (σ : Type) where
  | codec (call : CodecCall)
  | steps (w : Walk) (n : Nat)
  | rows (client : RowStore) (call : Call) (s : σ)

namespace Work

variable {σ : Type} [KeyValueStore σ]

/-- What it reports. -/
def events : Work σ → List Event
  | codec call => call.run.events
  | steps w n => (w.stepped n).events
  | rows client call s => ((call.report client).run s).1.events

/-- Bytes were rejected because they are no record. -/
def isRejected : Work σ → Bool
  | codec call => call.isRejected
  | steps w n => !(w.faults n).isEmpty
  | rows client call s => ((call.report client).run s).1.value.isRejection

/-- **Whatever is done counts a rejection if it is one**, and else none. -/
theorem total_decodeError (work : Work σ) :
    Event.total .decodeError work.events = work.isRejected.toNat := by
  cases work with
  | codec call => exact call.total_decodeError
  | steps w n =>
    rw [events, isRejected, Walk.total_stepped]
    have hone := w.length_faults_le n
    match w.faults n, hone with
    | [], _ => rfl
    | [_], _ => rfl
  | rows client call s => exact (call.ends_report client).run s

/-- So does a run. -/
theorem total_decodeError_flatMap (works : List (Work σ)) :
    Event.total .decodeError (works.flatMap events) = works.countP isRejected := by
  induction works with
  | nil => rfl
  | cons work works ih =>
    rw [List.flatMap_cons, Event.total_append, ih, total_decodeError, List.countP_cons,
      Nat.add_comm]
    cases work.isRejected <;> rfl

/-- A scan that is answered with something that is no record is rejected. -/
theorem isRejected_scan (client : RowStore) {key : Bytes} {count : Nat} {wanted : Option Selection}
    {result : List Buffer} {s : σ} {pairs : List (Bytes × Bytes)}
    (hserve : (KeyValueStore.serve (.scan key count) s).1 = some pairs)
    (hbroken : ∃ pair ∈ pairs, ¬ Record.Valid pair.2)
    (hwanted : ∀ names ∈ wanted, names.isEmpty = false)
    (hlimit : ∀ b ∈ result, b.limit = Record.maxLength) :
    (rows client (.scan key count wanted result) s).isRejected = true := by
  have hrows := RowStore.isRejection_fillRows client.order hbroken hwanted hlimit
  rw [isRejected, Call.report, RowStore.reporting, Program.run_bind, RowStore.scan,
    Program.run_bind, Program.run_ask, hserve]
  exact (client.isRejection_conclude key _ _ _).trans hrows

end Work

/-- **Rejections are counted once.** Whatever is done raises the counter by one if bytes are
    rejected because they are no record, and not at all otherwise; a run raises it by the number of
    its rejections. Stepping a walk, as far as its end and beyond, raises it by the number of faults
    that it yields, which is at most one; a scan that meets rows that are no records, however many,
    by one; and looking up a name that an entry before the fault has, not at all. -/
theorem rejections_are_counted_once {σ T : Type} [KeyValueStore σ] [TimeTally T] (r : Recorder T) :
    let shown (events : List Event) := (r.recordAll events).counter .decodeError
    (∀ work : Work σ,
      shown work.events = r.counter .decodeError + if work.isRejected then 1 else 0) ∧
    (∀ works : List (Work σ), shown (works.flatMap Work.events) =
      r.counter .decodeError + UInt64.ofNat (works.countP Work.isRejected)) ∧
    (∀ (w : Walk) (n : Nat), (w.stepped n).value = w.yields n ∧ (w.faults n).length ≤ 1 ∧
      shown (w.stepped n).events = r.counter .decodeError + UInt64.ofNat (w.faults n).length) ∧
    (∀ (client : RowStore) (key : Bytes) (count : Nat) (wanted : Option Selection)
      (result : List Buffer) (s : σ) (pairs : List (Bytes × Bytes)),
      (KeyValueStore.serve (.scan key count) s).1 = some pairs →
      (∃ pair ∈ pairs, ¬ Record.Valid pair.2) →
      (∀ names ∈ wanted, names.isEmpty = false) → (∀ b ∈ result, b.limit = Record.maxLength) →
        shown (Work.rows client (.scan key count wanted result) s).events =
          r.counter .decodeError + 1) ∧
    ∀ (v : View) (name : Bytes), (∃ e ∈ v.walk.yielded (v.length + 1), e.name = name) →
      shown (CodecCall.get v name).run.events = r.counter .decodeError ∧
      shown (CodecCall.contains v name).run.events = r.counter .decodeError := by
  intro shown
  have hshown : ∀ events, shown events =
      r.counter .decodeError + UInt64.ofNat (Event.total .decodeError events) := fun events =>
    r.counter_recordAll events .decodeError
  refine ⟨fun work => ?_, fun works => ?_, fun w n => ⟨w.value_stepped n, w.length_faults_le n, ?_⟩,
    fun client key count wanted result s pairs hserve hbroken hwanted hlimit => ?_,
    fun v name hentry => ?_⟩
  · rw [hshown, work.total_decodeError]
    cases work.isRejected <;> rfl
  · rw [hshown, Work.total_decodeError_flatMap]
  · rw [hshown, Walk.total_stepped]
  · have hrejected := Work.isRejected_scan client hserve hbroken hwanted hlimit
    rw [hshown, Work.total_decodeError, hrejected]
    rfl
  · obtain ⟨hget, hcontains⟩ := CodecCall.lookup_not_rejected hentry
    rw [hshown, hshown, CodecCall.total_decodeError, CodecCall.total_decodeError, hget, hcontains]
    exact ⟨UInt64.add_zero _, UInt64.add_zero _⟩

/-- The store holds a row, bytes whose only field is cut off, and bytes without a count. A scan that
    asks for all of them is rejected once, as are an update of the second and a read of the third.
    A record that breaks off behind its first field is rejected by a projection in asked order, but
    not by looking up this field; stepping far beyond its end yields one fault; and a merge that is
    refused for its limit is no rejection. -/
theorem rejections_of_broken_rows :
    let row : Bytes := Record.encode [⟨[97], [1, 1]⟩]
    let cut : View := ⟨[2, 0, 0, 0, 1, 0, 0, 0, 97, 1, 0, 0, 0, 7, 3, 0]⟩
    let m : MemoryStore :=
      ((∅ : MemoryStore).insert [1] row).insert [2] [1, 0, 0, 0, 9] |>.insert [3] [0]
    let client : RowStore := ⟨⟨⟨Record.emptyBytes, 1, 64⟩⟩, .source, []⟩
    let works : List (Work MemoryStore) := [
      .rows client (.update [2] ⟨row⟩) m,
      .rows client (.read [3] none Buffer.new) m,
      .rows client (.update [1] ⟨row⟩) m,
      .codec (.get cut [97]),
      .codec (.projectToBuffer cut (.list [[97], [98]]) .request),
      .steps cut.walk 9]
    let r : Recorder Latency := Recorder.empty
    let shown (events : List Event) := (r.recordAll events).counter .decodeError
    m.pairsFrom [] 9 = [([1], row), ([2], [1, 0, 0, 0, 9]), ([3], [0])] ∧
      (Work.rows client (.update [1] ⟨row⟩) m).isRejected = false ∧
      shown (Work.rows client (.scan [] 9 none []) m).events = 1 ∧
      shown (works.flatMap Work.events) = 4 ∧
      (∃ e ∈ cut.walk.yielded (cut.length + 1), e.name = [97]) ∧
      shown (CodecCall.get cut [97]).run.events = 0 ∧
      (cut.walk.faults 9).length = 1 := by
  intro row cut m client works r shown
  have hpairs : m.pairsFrom [] 9 = [([1], row), ([2], [1, 0, 0, 0, 9]), ([3], [0])] := by decide
  have hbroken : ∃ pair ∈ m.pairsFrom [] 9, ¬ Record.Valid pair.2 := by
    rw [hpairs]
    exact ⟨([3], [0]), by decide, fun ⟨_, h⟩ => absurd h.header (by decide)⟩
  have hentry : ∃ e ∈ cut.walk.yielded (cut.length + 1), e.name = [97] := by decide
  have hcount : works.countP Work.isRejected = 4 := by decide
  obtain ⟨-, hworks, -, hscan, hlookup⟩ :=
    rejections_are_counted_once (σ := MemoryStore) r
  refine ⟨hpairs, by decide, ?_, ?_, hentry, (hlookup cut [97] hentry).1, by decide⟩
  · exact hscan client [] 9 none [] m _ rfl hbroken nofun nofun
  · exact (hworks works).trans (by rw [hcount]; rfl)

end FieldRecords
