import FieldRecords.Proofs.Reports

/-!
# Calls of the codec, and what each reports

A call on views and buffers is taken together with everything it is applied to (`CodecCall`), so a
list of calls is what any run makes, whatever it keeps between them, and a run reports what its
calls report one after the other (`CodecCall.reported`).

All ways to merge report what one merge reports (`CodecCall.run_of_merging`), and all ways to
project what one projection reports (`CodecCall.run_of_projecting`). Fields that are appended are
counted one by one, up to the first that is refused (`Buffer.reports_extendFields`). **What neither
merges nor projects nor edits reports as reading does** (`CodecCall.reports_of_plain`).
-/

namespace FieldRecords

/-! ## 1. Calls -/

/-- How a step of a walk went. -/
def Walk.Step.outcome : Walk.Step → Except CodecError Unit
  | .fault error => .error error
  | _ => .ok ()

/-- How it went, instead of what was answered. -/
def Checked.settled {α : Type} (x : Checked α) : Metered (Except CodecError Unit) :=
  Except.map (fun _ => ()) <$> x.run

/-- **The fields that are appended one by one** before one of them is refused. -/
def Buffer.appendable (b : Buffer) : List Field → List Field
  | [] => []
  | f :: fields =>
    match (b.append f).answer with
    | .ok b => f :: b.appendable fields
    | .error _ => []

/-- **A call on views and buffers, with all it is applied to.** There is memory for what it writes;
    asking for room alone goes as its `growth` says. What is not listed reports nothing, by its
    type: making and copying a buffer, taking a view of it, counting the fields. -/
inductive CodecCall where
  | takeView (bytes : Bytes)
  | step (w : Walk)
  | get (v : View) (name : Bytes)
  | contains (v : View) (name : Bytes)
  | validate (v : View)
  | toFields (v : View)
  | readInto (v : View) (out : RowList)
  | ofBytes (bytes : Bytes)
  | fromFields (fields : List Field)
  | append (b : Buffer) (f : Field)
  | extendFields (b : Buffer) (fields : List Field)
  | clear (b : Buffer)
  | reserve (b : Buffer) (additional : Nat) (growth : Growth)
  | assign (b : Buffer) (v : View)
  | mergeInto (base update : View) (out : Buffer)
  | merge (base update : View)
  | mergeBy (merger : Merger) (base update : View)
  | project (v : View) (wanted : Selection) (order : ProjectionOrder) (out : Buffer)
  | projectToBuffer (v : View) (wanted : Selection) (order : ProjectionOrder)

namespace CodecCall

/-- **How a call goes, and what it reports.** -/
def run : CodecCall → Metered (Except CodecError Unit)
  | takeView bytes => (View.ofBytes bytes).settled
  | step w => (fun stepped => stepped.1.outcome) <$> w.next
  | get v name => (v.get? name).settled
  | contains v name => (v.contains name).settled
  | validate v => v.validate.settled
  | toFields v => v.toFields.settled
  | readInto v out => Prod.snd <$> v.readInto out
  | ofBytes bytes => (Buffer.ofBytes bytes).settled
  | fromFields fields => (Buffer.fromFields fields).settled
  | append b f => (b.append f).settled
  | extendFields b fields => Edited.outcome <$> b.extendFields fields
  | clear b => (fun _ => .ok ()) <$> b.clear
  | reserve b additional growth => (b.reserve additional growth).settled
  | assign b v => (b.assign v).settled
  | mergeInto base update out => Edited.outcome <$> FieldRecords.mergeInto base update out
  | merge base update => (FieldRecords.merge base update).settled
  | mergeBy merger base update =>
    (fun left => left.2.map fun _ => ()) <$> merger.merge base update
  | project v wanted order out => Edited.outcome <$> FieldRecords.project v wanted order out
  | projectToBuffer v wanted order => (FieldRecords.projectToBuffer v wanted order).settled

/-- The call was not refused. -/
def granted (call : CodecCall) : Bool := call.run.value.isOk

/-- What calls report, one after the other. -/
def reported (calls : List CodecCall) : List Event :=
  calls.flatMap fun call => call.run.events

/-- A merge: what is merged, and the buffer that it is merged into. -/
def merging? : CodecCall → Option (View × View × Buffer)
  | mergeInto base update out => some (base, update, out)
  | merge base update =>
    some (base, update, .ofCapacity (base.bytes.length + update.bytes.length))
  | mergeBy merger base update => some (base, update, merger.scratch)
  | _ => none

/-- A projection: what is kept of which record, and the buffer that it is written to. -/
def projecting? : CodecCall → Option (View × Selection × ProjectionOrder × Buffer)
  | project v wanted order out => some (v, wanted, order, out)
  | projectToBuffer v wanted order => some (v, wanted, order, .ofCapacity v.bytes.length)
  | _ => none

/-- The fields that a call appends, if it appends any by itself. -/
def appended : CodecCall → List Field
  | fromFields fields => Buffer.new.appendable fields
  | append b f => b.appendable [f]
  | extendFields b fields => b.appendable fields
  | _ => []

/-- The call appends fields by itself. -/
def isAppend : CodecCall → Bool
  | fromFields _ | append _ _ | extendFields _ _ => true
  | _ => false

def isClear : CodecCall → Bool
  | clear _ => true
  | _ => false

def isAssign : CodecCall → Bool
  | assign _ _ => true
  | _ => false

def isMerge (call : CodecCall) : Bool := call.merging?.isSome

def isProjection (call : CodecCall) : Bool := call.projecting?.isSome

/-- The call only reads, or asks for room. -/
def isPlain (call : CodecCall) : Bool :=
  !(call.isAppend || call.isClear || call.isAssign || call.isMerge || call.isProjection)

/-- **What only reads, what appends, what clears, what assigns, what merges, what projects**: there
    is no other call. -/
theorem kinds (call : CodecCall) :
    call.isPlain = true ∨ call.isAppend = true ∨ (∃ b, call = clear b) ∨
      (∃ b v, call = assign b v) ∨ call.isMerge = true ∨ call.isProjection = true := by
  cases call with
  | clear b => exact .inr (.inr (.inl ⟨b, rfl⟩))
  | assign b v => exact .inr (.inr (.inr (.inl ⟨b, v, rfl⟩)))
  | fromFields | append | extendFields => exact .inr (.inl rfl)
  | mergeInto | merge | mergeBy => exact .inr (.inr (.inr (.inr (.inl rfl))))
  | project | projectToBuffer => exact .inr (.inr (.inr (.inr (.inr rfl))))
  | takeView | step | get | contains | validate | toFields | readInto | ofBytes | reserve =>
    exact .inl rfl

end CodecCall

/-! ## 2. Fields that are appended -/

namespace Buffer

/-- A buffer has as many fields as it came to with those written at its end, whatever its bytes
    are. -/
theorem length_write (b : Buffer) (batch : Batch) (h : batch.count ≤ Record.maxLength) :
    (b.write batch).length = batch.count := by
  have hbytes : (b.write batch).bytes = Bytes.u32 batch.count ++
      (b.bytes ++ batch.fields.reverse.flatMap Field.encode).drop
        (0 + (Bytes.u32 batch.count).length) := rfl
  have hcount : batch.count < 4294967296 := by
    simp only [Record.maxLength] at h
    omega
  show View.length ⟨(b.write batch).bytes⟩ = _
  rw [View.length, hbytes, Bytes.readU32?_u32 hcount]

/-- With memory for everything it does not matter to what a field is added, but for the limit and
    the count. -/
theorem accept_alike {b current : Buffer} (hlimit : current.limit = b.limit) (batch batch' : Batch)
    (hcount : batch'.count = batch.count) (f : Field) :
    (∃ error, error.isMalformed = false ∧ b.accept batch f = throw error ∧
      current.accept batch' f = throw error) ∨
    (batch.count < Record.maxLength ∧
      (b.accept batch f = do Metered.count .recordAppend; return batch.add f) ∧
      current.accept batch' f = do Metered.count .recordAppend; return batch'.add f) := by
  unfold accept
  rw [hlimit, hcount, Growth.within_granted, Growth.within_granted]
  by_cases hname : b.limit < f.name.length
  · simp only [if_pos hname]
    exact .inl ⟨_, rfl, rfl, rfl⟩
  · by_cases hvalue : b.limit < f.value.length
    · simp only [if_neg hname, if_pos hvalue]
      exact .inl ⟨_, rfl, rfl, rfl⟩
    · by_cases hfull : Record.maxLength ≤ batch.count
      · simp only [if_neg hname, if_neg hvalue, if_pos hfull]
        exact .inl ⟨_, rfl, rfl, rfl⟩
      · simp only [if_neg hname, if_neg hvalue, if_neg hfull]
        exact .inr ⟨Nat.lt_of_not_le hfull, rfl, rfl⟩

/-- Accepting fields one after the other reports like appending them one after the other. -/
theorem reports_accept (b current : Buffer) (hlimit : current.limit = b.limit)
    (fields : List Field) (batch : Batch) (hcount : current.length = batch.count) :
    let ran := Checked.foldUntilRefused (fun batch f => b.accept batch f) fields batch
    ran.events = (current.appendable fields).map (fun _ => .count .recordAppend 1) ∧
      ∀ error, ran.value.2 = .error error → error.isMalformed = false := by
  induction fields generalizing current batch with
  | nil => exact ⟨rfl, fun _ h => nomatch h⟩
  | cons f fields ih =>
    simp only [Checked.foldUntilRefused, appendable]
    obtain ⟨error, herror, haccept, happend⟩ | ⟨hroom, haccept, happend⟩ :=
      accept_alike hlimit batch current.batch hcount f
    · have hrefused : (current.append f).answer = .error error := by
        rw [append, happend]
        rfl
      rw [hrefused, haccept]
      refine ⟨rfl, fun other hother => ?_⟩
      cases hother
      exact herror
    · have hgranted : (current.append f).answer =
          .ok (current.write (current.batch.add f)) := by
        rw [append, happend]
        rfl
      have hadded : (current.batch.add f).count = (batch.add f).count :=
        congrArg (· + 1) hcount
      have hwritten : (current.write (current.batch.add f)).length = (batch.add f).count := by
        rw [length_write current _ (hadded ▸ hroom), hadded]
      obtain ⟨hevents, hrefused⟩ := ih (current.write (current.batch.add f)) hlimit _ hwritten
      rw [hgranted, haccept]
      exact ⟨congrArg (Event.count .recordAppend 1 :: ·) hevents, hrefused⟩

/-- **Appending several fields counts those that are appended**, and no refusal. -/
theorem reports_extendFields (b : Buffer) (fields : List Field) :
    (b.extendFields fields).events =
        (b.appendable fields).map (fun _ => .count .recordAppend 1) ∧
      ∀ error, (b.extendFields fields).value.outcome = .error error →
        error.isMalformed = false := by
  obtain ⟨hevents, hrefused⟩ := reports_accept b b rfl fields b.batch rfl
  refine ⟨?_, hrefused⟩
  rw [← hevents]
  exact List.append_nil _

end Buffer

/-! ## 3. What each call reports -/

theorem Checked.events_settled {α : Type} (x : Checked α) : x.settled.events = x.events :=
  events_map _ _

theorem Checked.value_settled {α : Type} (x : Checked α) : x.settled.value = x.outcome := rfl

theorem Checked.reports_settled {α : Type} {x : Checked α} (h : x.Reports) :
    FieldRecords.Reports x.settled.events x.settled.value := by
  rw [events_settled]
  exact h

namespace CodecCall

/-- **What only reads reports as reading does.** -/
theorem reports_of_plain {call : CodecCall} (h : call.isPlain = true) :
    Reports call.run.events call.run.value := by
  cases call with
  | takeView bytes => exact Checked.reports_settled (View.reports_ofBytes bytes)
  | step w =>
    rw [run, Checked.events_map]
    show Reports w.next.events w.next.value.1.outcome
    obtain ⟨-, w', hnext⟩ | ⟨error, hfault, hnext⟩ | ⟨e, w', -, -, -, -, hnext⟩ := w.next_cases
    · rw [hnext]
      exact .nothing
    · rw [hnext]
      exact .fault (Walk.isMalformed_fault (w := w) (by rw [hfault]))
    · rw [hnext]
      exact .nothing
  | get v name => exact Checked.reports_settled (v.reports_get? name)
  | contains v name => exact Checked.reports_settled (v.reports_contains name)
  | validate v => exact Checked.reports_settled v.reports_validate
  | toFields v => exact Checked.reports_settled v.reports_toFields
  | readInto v out =>
    rw [run, Checked.events_map]
    exact v.reports_readInto out
  | ofBytes bytes =>
    have hview : (Buffer.ofBytes bytes).Reports :=
      (View.reports_ofBytes bytes).bind fun v =>
        v.reports_validate.bind fun _ => Checked.reports_pure _
    exact Checked.reports_settled hview
  | reserve b additional growth =>
    exact Checked.reports_settled (b.reports_reserve additional growth)
  | fromFields | append | extendFields | clear | assign | mergeInto | merge | mergeBy | project
  | projectToBuffer => cases h

/-- **All ways to merge report what one merge reports**, and go like it. -/
theorem run_of_merging {call : CodecCall} {base update : View} {out : Buffer}
    (h : call.merging? = some (base, update, out)) :
    call.run.events = (FieldRecords.mergeInto base update out).events ∧
      call.run.value = (FieldRecords.mergeInto base update out).value.outcome := by
  cases call <;> cases h
  case mergeInto => exact ⟨Checked.events_map _ _, rfl⟩
  case merge =>
    obtain ⟨hevents, houtcome⟩ := Checked.reports_of_run_eq (x := FieldRecords.merge base update)
      (Checked.run_orThrow _ Edited.outcome Edited.buffer)
    exact ⟨(Checked.events_settled _).trans hevents, houtcome⟩
  case mergeBy merger =>
    rw [run, Checked.events_map, Checked.value_map]
    refine ⟨List.append_nil _, ?_⟩
    show Except.map _ (Except.map _
      (FieldRecords.mergeInto base update merger.scratch).value.outcome) = _
    cases (FieldRecords.mergeInto base update merger.scratch).value.outcome <;> rfl

/-- **All ways to project report what one projection reports**, and go like it. -/
theorem run_of_projecting {call : CodecCall} {v : View} {wanted : Selection}
    {order : ProjectionOrder} {out : Buffer} (h : call.projecting? = some (v, wanted, order, out)) :
    call.run.events = (FieldRecords.project v wanted order out).events ∧
      call.run.value = (FieldRecords.project v wanted order out).value.outcome := by
  cases call <;> cases h
  case project => exact ⟨Checked.events_map _ _, rfl⟩
  case projectToBuffer =>
    obtain ⟨hevents, houtcome⟩ := Checked.reports_of_run_eq
      (x := FieldRecords.projectToBuffer v wanted order)
      (Checked.run_orThrow _ Edited.outcome Edited.buffer)
    exact ⟨(Checked.events_settled _).trans hevents, houtcome⟩

/-- **Fields that are appended are counted one by one**; a refusal is not counted. -/
theorem run_of_append {call : CodecCall} (h : call.isAppend = true) :
    call.run.events = call.appended.map (fun _ => .count .recordAppend 1) ∧
      ∀ error, call.run.value = .error error → error.isMalformed = false := by
  cases call with
  | fromFields fields =>
    obtain ⟨hevents, hrefused⟩ := Buffer.new.reports_extendFields fields
    obtain ⟨hfrom, houtcome⟩ := Checked.reports_of_run_eq (x := Buffer.fromFields fields)
      (Checked.run_orThrow (Buffer.new.extendFields fields) Edited.outcome Edited.buffer)
    rw [run, Checked.events_settled, Checked.value_settled, hfrom, houtcome]
    exact ⟨hevents, hrefused⟩
  | append b f =>
    rw [run, Checked.events_settled, Checked.value_settled, appended, Buffer.appendable]
    obtain ⟨error, herror, happend⟩ | happend := b.append_cases f .granted
    · rw [happend]
      refine ⟨rfl, fun other hother => ?_⟩
      cases hother
      exact herror
    · rw [happend]
      exact ⟨rfl, fun _ hother => (nomatch hother)⟩
  | extendFields b fields =>
    rw [run, Checked.events_map, Checked.value_map]
    exact b.reports_extendFields fields
  | takeView | step | get | contains | validate | toFields | readInto | ofBytes | clear | reserve
  | assign | mergeInto | merge | mergeBy | project | projectToBuffer => cases h

/-- **A record is taken over and counted, or refused for its fault.** -/
theorem run_assign (b : Buffer) (v : View) :
    (v.contents.fault = none ∧ (assign b v).run = ⟨.ok (), [.count .recordAssign 1]⟩) ∨
      ∃ error, v.contents.fault = some error ∧ error.isMalformed = true ∧
        (assign b v).run = ⟨.error error, [.count .decodeError 1]⟩ := by
  rw [run, Checked.settled, Buffer.assign, b.copy_granted, v.validate_eq, Contents.conclude]
  cases hfault : v.contents.fault with
  | none => exact .inl ⟨rfl, rfl⟩
  | some error => exact .inr ⟨error, rfl, Walk.isMalformed_fault (w := v.walk) hfault, rfl⟩

end CodecCall

end FieldRecords
