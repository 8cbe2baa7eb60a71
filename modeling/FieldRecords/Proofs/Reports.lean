import FieldRecords.Record.Merge
import FieldRecords.Record.Projection
import FieldRecords.Proofs.Contents

/-!
# What is reported on the way

Reading a record, laying a field over another record and keeping a field report in few ways, and how
they report goes with how they end (`Reports`): a fault of the bytes is counted once, and it is the
end; a field that is too long, or one too many, is not counted at all; and a field that is appended
is counted as appended and as what it was appended for. Steps that report so can be put one after
the other (`Checked.Reports.bind`, `Walk.reports_foldUntilRefused`), so **whatever walks over a
record, as often as it likes, reports so** (`View.reports_validate`, `Buffer.reports_overlay`,
`reports_projectByRequest`).

Merges and projections report a few things around that (`reports_mergeInto`, `reports_project`).
-/

namespace FieldRecords

/-! ## 1. Ways to report -/

/-- **What is reported up to an outcome.** -/
inductive Reports : List Event → Except CodecError Unit → Prop where
  | nothing : Reports [] (.ok ())
  /-- Fields that are refused are not counted. -/
  | refused {error : CodecError} (h : error.isMalformed = false) : Reports [] (.error error)
  /-- A fault of the bytes is counted where it is met. -/
  | fault {error : CodecError} (h : error.isMalformed = true) :
    Reports [.count .decodeError 1] (.error error)
  /-- A value is laid over another. -/
  | overwritten : Reports [.count .mergeOverwrite 1] (.ok ())
  /-- A field is laid behind the others. -/
  | added : Reports [.count .recordAppend 1, .count .mergeAppend 1] (.ok ())
  /-- A field is kept. -/
  | kept : Reports [.count .recordAppend 1, .count .projectKept 1] (.ok ())
  /-- A field is passed over. -/
  | skipped : Reports [.count .projectSkipped 1] (.ok ())
  | andThen {before after : List Event} {outcome : Except CodecError Unit}
    (hbefore : Reports before (.ok ())) (hafter : Reports after outcome) :
    Reports (before ++ after) outcome

/-- A refusal after which nothing is reported. -/
theorem Reports.append_nil {events : List Event} {outcome : Except CodecError Unit}
    (h : Reports events outcome) : Reports (events ++ []) outcome := by
  rw [List.append_nil]
  exact h

namespace Checked

variable {α β σ : Type}

/-- How an answer went, without what was answered. -/
def outcome (x : Checked α) : Except CodecError Unit := x.answer.map fun _ => ()

theorem outcome_eq_answer (x : Checked Unit) : x.outcome = x.answer := by
  rw [outcome]
  cases x.answer <;> rfl

/-- The computation reports in these ways, up to how it went. -/
def Reports (x : Checked α) : Prop := FieldRecords.Reports x.events x.outcome

/-- A refused step reports what it reported, and a granted one goes on. -/
theorem events_bind (x : Checked α) (f : α → Checked β) :
    (x >>= f).events = x.events ++
      match x.answer with
      | .ok a => (f a).events
      | .error _ => [] := by
  change (x.run >>= ExceptT.bindCont f).events = _
  rw [Metered.events_bind, value_run]
  cases x.answer <;> rfl

theorem reports_pure (a : α) : (pure a : Checked α).Reports := .nothing

@[simp] theorem events_map (f : α → β) (x : Metered α) : (f <$> x).events = x.events :=
  List.append_nil x.events

/-- What is refused as a whole if it was refused on the way. -/
theorem run_orThrow (x : Metered α) (outcome : α → Except CodecError Unit) (result : α → β) :
    ExceptT.run (do
      let a ← (liftM x : Checked α)
      match outcome a with
      | .ok () => return result a
      | .error error => throw error : Checked β) =
      (fun a => (outcome a).map fun () => result a) <$> x := by
  rw [ExceptT.run_bind, ExceptT.run_liftM, bind_map_left, map_eq_pure_bind]
  refine bind_congr fun a => ?_
  dsimp only
  cases outcome a <;> rfl

/-- It reports what was reported on the way. -/
theorem reports_of_run_eq {x : Checked β} {y : Metered α} {outcome : α → Except CodecError Unit}
    {result : α → β} (h : x.run = (fun a => (outcome a).map fun () => result a) <$> y) :
    x.events = y.events ∧ x.outcome = outcome y.value := by
  rw [Checked.events, Checked.outcome, ← value_run, h, events_map, value_map]
  refine ⟨rfl, ?_⟩
  cases outcome y.value <;> rfl

/-- **Steps that report so report so one after the other.** -/
theorem Reports.bind {x : Checked α} (hx : x.Reports) {f : α → Checked β}
    (hf : ∀ a, (f a).Reports) : (x >>= f).Reports := by
  unfold Reports outcome at hx ⊢
  rw [events_bind, answer_bind]
  cases hanswer : x.answer with
  | ok a =>
    rw [hanswer] at hx
    exact .andThen hx (hf a)
  | error error =>
    rw [hanswer] at hx
    exact hx.append_nil

/-- **So do steps up to the first that is refused.** -/
theorem reports_foldUntilRefused {f : σ → α → Checked σ} (hf : ∀ s a, (f s a).Reports) (as : List α)
    (s : σ) : FieldRecords.Reports (foldUntilRefused f as s).events
      (foldUntilRefused f as s).value.2 := by
  induction as generalizing s with
  | nil => exact .nothing
  | cons a rest ih =>
    have ha := hf s a
    unfold Reports outcome at ha
    simp only [foldUntilRefused, Metered.events_bind, Metered.value_bind, value_run]
    cases hanswer : (f s a).answer with
    | ok t =>
      rw [hanswer] at ha
      exact .andThen ha (ih t)
    | error error =>
      rw [hanswer] at ha
      exact ha.append_nil

end Checked

/-! ## 2. Reading -/

/-- What an entry lacks is a fault of the bytes. -/
theorem Entry.isMalformed_of_decode {start : Nat} {bytes : Bytes} {error : CodecError}
    (h : Entry.decode start bytes = .error error) : error.isMalformed = true := by
  obtain ⟨offset, reason, rfl, -⟩ := truncated_of_decode h
  rfl

/-- **The fault of a byte string is a fault of the bytes**, and not of what is made of them. -/
theorem Contents.isMalformed_of_read {count offset : Nat} {bytes : Bytes} {error : CodecError}
    (h : (Contents.read count offset bytes).fault = some error) : error.isMalformed = true := by
  induction count generalizing offset bytes with
  | zero =>
    rw [read] at h
    split at h
    · cases h
    · cases h
      rfl
  | succ count ih =>
    rw [read] at h
    split at h
    · exact ih h
    · rename_i decoded hdecoded
      cases h
      exact Entry.isMalformed_of_decode hdecoded

namespace Walk

variable {σ : Type}

theorem isMalformed_fault {w : Walk} {error : CodecError} (h : w.contents.fault = some error) :
    error.isMalformed = true := by
  unfold contents at h
  split at h
  · cases h
  · exact Contents.isMalformed_of_read h

/-- Coming to the end of a walk. -/
theorem reports_conclude (w : Walk) : w.contents.conclude.Reports := by
  unfold Contents.conclude
  cases hfault : w.contents.fault with
  | none => exact .nothing
  | some error => exact .fault (isMalformed_fault hfault)

/-- **A walk over a record reports like its steps**, and counts a fault at the end. -/
theorem reports_foldUntilRefused {f : σ → Entry → Checked σ} (hf : ∀ s e, (f s e).Reports)
    (w : Walk) (s : σ) :
    Reports (w.foldUntilRefused f s).events (w.foldUntilRefused f s).value.2 := by
  have hentries := Checked.reports_foldUntilRefused hf w.entries s
  have hconclude := w.reports_conclude
  rw [foldUntilRefused_eq]
  simp only [Metered.events_bind, Metered.value_bind]
  cases houtcome : (Checked.foldUntilRefused f w.entries s).value.2 with
  | ok u =>
    rw [houtcome] at hentries
    rw [Checked.Reports, Checked.outcome_eq_answer] at hconclude
    exact .andThen hentries hconclude.append_nil
  | error error =>
    rw [houtcome] at hentries
    exact hentries.append_nil

/-- So does a walk that keeps nothing when it is refused. -/
theorem reports_foldM {f : σ → Entry → Checked σ} (hf : ∀ s e, (f s e).Reports) (w : Walk) (s : σ) :
    (w.foldM f s).Reports := by
  have hfold := reports_foldUntilRefused hf w s
  have hrun := run_foldM f w s
  have hevents : (w.foldM f s).events = (w.foldUntilRefused f s).events := by
    rw [Checked.events, hrun]
    exact List.append_nil _
  have hanswer : (w.foldM f s).outcome = (w.foldUntilRefused f s).value.2 := by
    rw [Checked.outcome, ← Checked.value_run, hrun]
    show Except.map _ (Except.map _ (w.foldUntilRefused f s).value.2) = _
    cases (w.foldUntilRefused f s).value.2 <;> rfl
  rw [Checked.Reports, hevents, hanswer]
  exact hfold

/-- **Looking for an entry counts a fault only if none is found.** -/
theorem reports_find? (p : Entry → Bool) (w : Walk) : (w.find? p).Reports := by
  rw [find?_eq]
  cases w.entries.find? p with
  | some e => exact .nothing
  | none => exact w.reports_conclude.bind fun _ => .nothing

end Walk

namespace View

theorem reports_ofBytes (bytes : Bytes) : (View.ofBytes bytes).Reports := by
  unfold View.ofBytes
  split
  · exact .fault rfl
  · exact .nothing

theorem reports_validate (v : View) : v.validate.Reports :=
  v.walk.reports_foldM (fun _ _ => Checked.reports_pure ()) ()

theorem reports_locate? (v : View) (name : Bytes) : (v.locate? name).Reports :=
  v.walk.reports_find? _

theorem reports_get? (v : View) (name : Bytes) : (v.get? name).Reports :=
  (v.reports_locate? name).bind fun _ => .nothing

theorem reports_contains (v : View) (name : Bytes) : (v.contains name).Reports :=
  (v.reports_get? name).bind fun _ => .nothing

theorem reports_readInto (v : View) (out : RowList) :
    Reports (v.readInto out).events (v.readInto out).value.2 := by
  have hvalid := v.reports_validate
  rw [validate_eq, Checked.Reports, Checked.outcome_eq_answer] at hvalid
  rw [readInto_eq, Checked.events_map, Checked.value_map]
  exact hvalid

theorem reports_toFields (v : View) : v.toFields.Reports := by
  have hread := v.reports_readInto RowList.empty
  obtain ⟨hevents, houtcome⟩ := Checked.reports_of_run_eq (x := v.toFields)
    (Checked.run_orThrow (v.readInto RowList.empty) Prod.snd fun read => read.1.toList)
  rw [Checked.Reports, hevents, houtcome]
  exact hread

end View

/-! ## 3. Writing -/

namespace Buffer

/-- **A field is refused uncounted, or counted as appended.** -/
theorem accept_cases (b : Buffer) (batch : Batch) (f : Field) (growth : Growth) :
    (∃ error, error.isMalformed = false ∧ b.accept batch f growth = throw error) ∨
      (batch.count < Record.maxLength ∧ b.accept batch f growth = do
        Metered.count .recordAppend
        return batch.add f) := by
  unfold accept
  split
  · exact .inl ⟨_, rfl, rfl⟩
  · split
    · exact .inl ⟨_, rfl, rfl⟩
    · split
      · exact .inl ⟨_, rfl, rfl⟩
      · rename_i hcount
        split
        · exact .inr ⟨Nat.lt_of_not_le hcount, rfl⟩
        · exact .inl ⟨_, rfl, rfl⟩

theorem append_cases (b : Buffer) (f : Field) (growth : Growth) :
    (∃ error, error.isMalformed = false ∧ b.append f growth = throw error) ∨
      b.append f growth = do
        Metered.count .recordAppend
        return b.write (b.batch.add f) := by
  unfold append
  obtain ⟨error, herror, haccept⟩ | ⟨-, haccept⟩ := b.accept_cases b.batch f growth
  · rw [haccept]
    exact .inl ⟨error, herror, rfl⟩
  · rw [haccept]
    exact .inr rfl

/-- Asking for room is refused uncounted, or granted uncounted. -/
theorem reports_reserve (b : Buffer) (additional : Nat) (growth : Growth) :
    (b.reserve additional growth).Reports := by
  unfold reserve
  split
  · exact .nothing
  · exact .refused rfl

/-- So is replacing a value. -/
theorem reports_replaceValue (b : Buffer) (e : Entry) (value : Bytes) (growth : Growth) :
    (b.replaceValue e value growth).Reports := by
  unfold replaceValue
  split
  · exact .refused rfl
  · split
    · exact .nothing
    · split
      · exact (b.reports_reserve _ growth).bind fun _ => .nothing
      · exact .nothing

theorem reports_put (b : Buffer) (f : Field) : (b.put f).Reports := by
  unfold put
  refine (b.view.reports_locate? f.name).bind fun found => ?_
  cases found with
  | some e => exact (b.reports_replaceValue e f.value .granted).bind fun _ => .overwritten
  | none =>
    obtain ⟨error, herror, happend⟩ | happend := b.append_cases f .granted
    · rw [happend]
      exact .refused herror
    · rw [happend]
      exact .added

/-- **Laying an update over a record reports so.** -/
theorem reports_overlay (b : Buffer) (update : View) :
    Reports (b.overlay update).events (b.overlay update).value.outcome := by
  have hwalk := update.walk.reports_foldUntilRefused (fun b e => Buffer.reports_put b e.field) b
  exact hwalk.append_nil

end Buffer

theorem reports_keepWanted (wanted : Selection) (out : Buffer) (growth : Growth)
    (kept : Buffer.Batch) (e : Entry) : (keepWanted wanted out growth kept e).Reports := by
  unfold keepWanted
  split
  · obtain ⟨error, herror, haccept⟩ | ⟨-, haccept⟩ := out.accept_cases kept e.field growth
    · rw [haccept]
      exact .refused herror
    · rw [haccept]
      exact .kept
  · exact .skipped

theorem reports_keepFirst (v : View) (growth : Growth) (out : Buffer) (name : Bytes) :
    (keepFirst v growth out name).Reports := by
  unfold keepFirst
  refine (out.view.reports_contains name).bind fun there => ?_
  cases there with
  | true => exact .nothing
  | false =>
    refine (v.reports_get? name).bind fun found => ?_
    cases found with
    | some value =>
      dsimp only
      obtain ⟨error, herror, happend⟩ | happend := out.append_cases ⟨name, value⟩ growth
      · rw [happend]
        exact .refused herror
      · rw [happend]
        exact .kept
    | none => exact .nothing

/-- **Keeping fields as they are stored reports so.** -/
theorem reports_projectBySource (v : View) (wanted : Selection) (out : Buffer) :
    Reports (projectBySource v wanted out).events (projectBySource v wanted out).value.outcome := by
  have hwalk := v.walk.reports_foldUntilRefused (reports_keepWanted wanted out .granted) out.batch
  exact hwalk.append_nil

/-- **Keeping fields as they are asked for reports so**, though the record is walked over for every
    name. -/
theorem reports_projectByRequest (v : View) (wanted : Selection) (out : Buffer) :
    Reports (projectByRequest v wanted out).events
      (projectByRequest v wanted out).value.outcome := by
  have hvalidate := v.reports_validate
  have hkeep := Checked.reports_foldUntilRefused (reports_keepFirst v .granted) wanted.names out
  rw [Checked.Reports, Checked.outcome_eq_answer] at hvalidate
  unfold projectByRequest
  simp only [Metered.events_bind, Metered.value_bind, Checked.value_run]
  cases hanswer : v.validate.answer with
  | ok u =>
    rw [hanswer] at hvalidate
    exact .andThen hvalidate hkeep.append_nil
  | error error =>
    rw [hanswer] at hvalidate
    exact hvalidate.append_nil

/-! ## 4. Merges and projections -/

/-- A merge takes over its base if both records are without a fault. -/
def mergeTakesOver (base update : View) : List Event :=
  if base.contents.fault = none ∧ update.contents.fault = none then [.count .recordAssign 1] else []

/-- What is reported when a merge is through. -/
def mergeConclusion (merged : Buffer) : Except CodecError Unit → List Event
  | .ok () =>
    [.count .merge 1, .hit .mergedFieldCount merged.length.toUInt64,
      .hit .mergedRecordSize merged.bytes.length.toUInt64]
  | .error _ => [.count .recordClear 1]

/-- What is reported when a projection is through. -/
def projectConclusion (kept : Buffer) : Except CodecError Unit → List Event
  | .ok () => [.count .project 1, .hit .projectedFieldCount kept.length.toUInt64]
  | .error _ => [.count .recordClear 1]

/-- **Records are looked at before the first one is taken over**: the base is taken over and the
    update laid over it if both are without a fault, and otherwise the fault is all there is. -/
theorem layOver_cases (base update : View) (out : Buffer) :
    (base.contents.fault = none ∧ update.contents.fault = none ∧
      layOver base update out =
        ⟨((out.withBytes base.bytes).overlay update).value,
          .count .recordAssign 1 :: ((out.withBytes base.bytes).overlay update).events⟩) ∨
    ((base.contents.fault ≠ none ∨ update.contents.fault ≠ none) ∧
      ∃ error, error.isMalformed = true ∧
        layOver base update out = ⟨⟨out, .error error⟩, [.count .decodeError 1]⟩) := by
  have hsome : ∀ error : CodecError, some error ≠ none := fun _ => Option.some_ne_none _
  unfold layOver prepareMerge
  rw [out.copy_granted, base.validate_eq, update.validate_eq, Contents.conclude, Contents.conclude]
  cases hbase : base.contents.fault with
  | some error =>
    exact .inr ⟨.inl (hsome error), error, Walk.isMalformed_fault (w := base.walk) hbase, rfl⟩
  | none =>
    cases hupdate : update.contents.fault with
    | some error =>
      exact .inr ⟨.inr (hsome error), error, Walk.isMalformed_fault (w := update.walk) hupdate, rfl⟩
    | none => exact .inl ⟨rfl, rfl, rfl⟩

/-- What is laid over a record that is taken over reports as said. -/
theorem reports_layOver (base update : View) (out : Buffer) :
    ∃ inner, (layOver base update out).events = mergeTakesOver base update ++ inner ∧
      Reports inner (layOver base update out).value.outcome := by
  unfold mergeTakesOver
  obtain ⟨hbase, hupdate, hlaid⟩ | ⟨hfault, error, herror, hlaid⟩ := layOver_cases base update out
  · rw [hlaid, if_pos ⟨hbase, hupdate⟩]
    exact ⟨_, rfl, Buffer.reports_overlay _ update⟩
  · rw [hlaid, if_neg fun hnone => hfault.elim (· hnone.1) (· hnone.2)]
    exact ⟨_, rfl, .fault herror⟩

/-- **A merge lays the update over the base**, reports a time sample, what this reports, and how it
    went, and leaves what is laid if it is granted. -/
theorem events_mergeInto (base update : View) (out : Buffer) :
    (mergeInto base update out).events =
        .time .merge 0 :: ((layOver base update out).events ++
          mergeConclusion (layOver base update out).value.buffer
            (layOver base update out).value.outcome) ∧
      (mergeInto base update out).value.outcome = (layOver base update out).value.outcome ∧
      ((mergeInto base update out).value.outcome = .ok () →
        (mergeInto base update out).value.buffer = (layOver base update out).value.buffer) := by
  unfold mergeInto
  simp only [Metered.events_bind, Metered.value_bind]
  generalize layOver base update out = laid
  obtain ⟨⟨merged, outcome⟩, inner⟩ := laid
  cases outcome with
  | ok u => exact ⟨rfl, rfl, fun _ => rfl⟩
  | error error =>
    refine ⟨rfl, rfl, fun hgranted => ?_⟩
    cases hgranted

/-- **What a merge reports**: a time sample; that it took over its base, if both records are without
    a fault; what laying the update over it reports; and how it went. -/
theorem reports_mergeInto (base update : View) (out : Buffer) :
    ∃ inner merged, Reports inner (mergeInto base update out).value.outcome ∧
      (mergeInto base update out).events =
        .time .merge 0 :: (mergeTakesOver base update ++ inner ++
          mergeConclusion merged (mergeInto base update out).value.outcome) := by
  obtain ⟨inner, hlaid, hreports⟩ := reports_layOver base update out
  obtain ⟨hevents, houtcome, -⟩ := events_mergeInto base update out
  refine ⟨inner, (layOver base update out).value.buffer, ?_, ?_⟩
  · rw [houtcome]
    exact hreports
  · rw [hevents, hlaid, houtcome]

/-- Keeping nothing clears the output, and is granted. -/
theorem project_of_isEmpty (v : View) {wanted : Selection} (order : ProjectionOrder) (out : Buffer)
    (h : wanted.isEmpty = true) :
    (project v wanted order out).value.outcome = .ok () ∧
      (project v wanted order out).events = [.time .project 0, .count .recordClear 1] := by
  unfold project
  simp only [h]
  exact ⟨rfl, rfl⟩

/-- Keeping the wanted fields in the one order or in the other. -/
def projectInOrder (v : View) (wanted : Selection) : ProjectionOrder → Buffer → Metered Edited
  | .source, out => projectBySource v wanted out
  | .request, out => projectByRequest v wanted out

/-- In either order keeping fields reports as said. -/
theorem reports_projectInOrder (v : View) (wanted : Selection) (order : ProjectionOrder)
    (out : Buffer) :
    Reports (projectInOrder v wanted order out).events
      (projectInOrder v wanted order out).value.outcome := by
  cases order with
  | source => exact reports_projectBySource v wanted out
  | request => exact reports_projectByRequest v wanted out

/-- **A projection of something keeps the wanted fields in the cleared output**, reports a time
    sample, that the output was cleared, what keeping reports, and how it went, and leaves what is
    kept if it is granted. -/
theorem events_project (v : View) {wanted : Selection} (order : ProjectionOrder) (out : Buffer)
    (h : wanted.isEmpty = false) :
    (project v wanted order out).events =
        .time .project 0 :: .count .recordClear 1 ::
          ((projectInOrder v wanted order out.clear.value).events ++
            projectConclusion (projectInOrder v wanted order out.clear.value).value.buffer
              (projectInOrder v wanted order out.clear.value).value.outcome) ∧
      (project v wanted order out).value.outcome =
        (projectInOrder v wanted order out.clear.value).value.outcome ∧
      ((project v wanted order out).value.outcome = .ok () →
        (project v wanted order out).value.buffer =
          (projectInOrder v wanted order out.clear.value).value.buffer) := by
  unfold project
  simp only [h, Metered.events_bind, Metered.value_bind]
  cases order with
  | source =>
    rw [projectInOrder]
    generalize projectBySource v wanted out.clear.value = ran
    obtain ⟨⟨kept, outcome⟩, inner⟩ := ran
    cases outcome with
    | ok u => exact ⟨rfl, rfl, fun _ => rfl⟩
    | error error =>
      refine ⟨rfl, rfl, fun hgranted => ?_⟩
      cases hgranted
  | request =>
    rw [projectInOrder]
    generalize projectByRequest v wanted out.clear.value = ran
    obtain ⟨⟨kept, outcome⟩, inner⟩ := ran
    cases outcome with
    | ok u => exact ⟨rfl, rfl, fun _ => rfl⟩
    | error error =>
      refine ⟨rfl, rfl, fun hgranted => ?_⟩
      cases hgranted

/-- **What a projection of something reports**: a time sample; that the output was cleared; what
    keeping the fields reports; and how it went. -/
theorem reports_project (v : View) {wanted : Selection} (order : ProjectionOrder) (out : Buffer)
    (h : wanted.isEmpty = false) :
    ∃ inner kept, Reports inner (project v wanted order out).value.outcome ∧
      (project v wanted order out).events =
        .time .project 0 :: .count .recordClear 1 ::
          (inner ++ projectConclusion kept (project v wanted order out).value.outcome) := by
  let ran := projectInOrder v wanted order out.clear.value
  obtain ⟨hevents, houtcome, -⟩ := events_project v order out h
  refine ⟨ran.events, ran.value.buffer, ?_, ?_⟩
  · rw [houtcome]
    exact reports_projectInOrder v wanted order out.clear.value
  · rw [hevents, houtcome]

end FieldRecords
