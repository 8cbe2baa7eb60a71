import FieldRecords.Proofs.CodecCalls
import FieldRecords.Proofs.Merging
import FieldRecords.Proofs.Tallies

/-!
# What granted steps count

A merge counts each field of the update as it is laid over the row, and a projection each stored
field as it is kept or passed over. Looking up a name reports nothing if it succeeds
(`Checked.Silent`), so of a step that is granted only the field itself is counted
(`Buffer.put_granted`, `keepWanted_granted`, `keepFirst_granted`).

The counts so far go with the fields so far (`Laid`, `Sifted`, `Picked`). Each granted step keeps
that up, and **what granted steps keep up a run without a refusal keeps up**
(`Checked.foldUntilRefused_induct`, `Walk.foldUntilRefused_induct`). So a run that is granted has
counted just the fields that it handled (`Buffer.overlay_granted`, `projectInOrder_granted`).
-/

namespace FieldRecords

/-! ## 1. Granted steps -/

namespace Checked

variable {α β σ : Type}

/-- **A sequence that is granted is two steps that are**, and reports what both report. -/
theorem granted_bind {x : Checked α} {f : α → Checked β} {b : β} (h : (x >>= f).answer = .ok b) :
    ∃ a, x.answer = .ok a ∧ (f a).answer = .ok b ∧ (x >>= f).events = x.events ++ (f a).events := by
  rw [answer_bind] at h
  obtain ⟨a, ha, hb⟩ := Answer.bind_eq_ok.1 h
  refine ⟨a, ha, hb, ?_⟩
  rw [events_bind, ha]

/-- **Nothing is reported of success.** -/
def Silent (x : Checked α) : Prop := ∀ a, x.answer = .ok a → x.events = []

theorem silent_pure (a : α) : (pure a : Checked α).Silent := fun _ _ => rfl

theorem silent_throw (error : CodecError) : (throw error : Checked α).Silent := fun _ _ => rfl

/-- Steps that report nothing report nothing one after the other. -/
theorem Silent.bind {x : Checked α} (hx : x.Silent) {f : α → Checked β} (hf : ∀ a, (f a).Silent) :
    (x >>= f).Silent := by
  intro b h
  obtain ⟨a, ha, hb, hevents⟩ := granted_bind h
  rw [hevents, hx a ha, hf a b hb, List.append_nil]

/-- **What every granted step keeps up a run without a refusal keeps up**: a statement about the
    number of items so far, the events so far, and what was reached. -/
theorem foldUntilRefused_induct {f : σ → α → Checked σ} {P : Nat → List Event → σ → Prop}
    {as : List α}
    (hstep : ∀ n events s, P n events s → ∀ a ∈ as, ∀ s', (f s a).answer = .ok s' →
      P (n + 1) (events ++ (f s a).events) s')
    {n : Nat} {events : List Event} {s : σ} (h : P n events s)
    (hgranted : (foldUntilRefused f as s).value.2 = .ok ()) :
    P (n + as.length) (events ++ (foldUntilRefused f as s).events)
      (foldUntilRefused f as s).value.1 := by
  induction as generalizing n events s with
  | nil => exact (List.append_nil events).symm ▸ h
  | cons a as ih =>
    have hrest : ∀ n events s, P n events s → ∀ a ∈ as, ∀ s', (f s a).answer = .ok s' →
        P (n + 1) (events ++ (f s a).events) s' :=
      fun n events s hs a ha => hstep n events s hs a (List.mem_cons_of_mem _ ha)
    simp only [foldUntilRefused, Metered.value_bind, Metered.events_bind, value_run]
      at hgranted ⊢
    cases hanswer : (f s a).answer with
    | error error => rw [hanswer] at hgranted; cases hgranted
    | ok s' =>
      rw [hanswer] at hgranted
      have hnext := ih hrest (hstep n events s h a List.mem_cons_self s' hanswer) hgranted
      rw [List.length_cons, Nat.add_comm as.length, ← Nat.add_assoc]
      rw [List.append_assoc] at hnext
      exact hnext

end Checked

namespace Contents

theorem silent_conclude (c : Contents) : c.conclude.Silent := by
  intro u h
  rw [answer_conclude] at h
  rw [conclude, verdict_eq_ok.1 h]
  rfl

end Contents

namespace Walk

variable {σ : Type}

/-- **A walk that is granted meets no fault**, and goes through all entries. -/
theorem foldUntilRefused_induct {f : σ → Entry → Checked σ} {P : Nat → List Event → σ → Prop}
    {w : Walk} {s : σ}
    (hstep : ∀ n events s, P n events s → ∀ e ∈ w.entries, ∀ s', (f s e).answer = .ok s' →
      P (n + 1) (events ++ (f s e).events) s')
    (h : P 0 [] s) (hgranted : (w.foldUntilRefused f s).value.2 = .ok ()) :
    w.contents.fault = none ∧
      P w.entries.length (w.foldUntilRefused f s).events (w.foldUntilRefused f s).value.1 := by
  rw [foldUntilRefused_eq] at hgranted ⊢
  simp only [Metered.value_bind, Metered.events_bind] at hgranted ⊢
  cases houtcome : (Checked.foldUntilRefused f w.entries s).value.2 with
  | error error => rw [houtcome] at hgranted; cases hgranted
  | ok u =>
    rw [houtcome] at hgranted
    have hverdict : w.contents.verdict = .ok () := by
      rw [← Contents.answer_conclude]
      exact hgranted
    have hsilent := w.contents.silent_conclude () (w.contents.answer_conclude.trans hverdict)
    have hall := Checked.foldUntilRefused_induct hstep h houtcome
    rw [Nat.zero_add, List.nil_append] at hall
    refine ⟨Contents.verdict_eq_ok.1 hverdict, ?_⟩
    show P _ (_ ++ (w.contents.conclude.events ++ [])) _
    rw [hsilent, List.append_nil, List.append_nil]
    exact hall

theorem silent_find? (p : Entry → Bool) (w : Walk) : (w.find? p).Silent := by
  rw [find?_eq]
  cases w.entries.find? p with
  | some e => exact Checked.silent_pure _
  | none => exact w.contents.silent_conclude.bind fun _ => Checked.silent_pure _

end Walk

namespace View

theorem silent_locate? (v : View) (name : Bytes) : (v.locate? name).Silent := v.walk.silent_find? _

theorem silent_get? (v : View) (name : Bytes) : (v.get? name).Silent :=
  (v.silent_locate? name).bind fun _ => Checked.silent_pure _

theorem silent_contains (v : View) (name : Bytes) : (v.contains name).Silent :=
  (v.silent_get? name).bind fun _ => Checked.silent_pure _

theorem silent_validate (v : View) : v.validate.Silent := by
  rw [v.validate_eq]
  exact v.contents.silent_conclude

/-- Without a fault there are as many entries as the count declares. -/
theorem length_entries_walk {v : View} (h : v.contents.fault = none) :
    v.walk.entries.length = v.length := by
  obtain ⟨-, rest, -, hwhole⟩ := Contents.eq_encode_of_read v.length 4 (v.bytes.drop 4)
  rw [entries_walk, ← (hwhole h).1, Record.length_entries]
  rfl

/-- What a walk yields could be read, so it can be written. -/
theorem fits_of_mem_walk {v : View} {e : Entry} (h : e ∈ v.walk.entries) : e.field.Fits := by
  have hfield := List.mem_map_of_mem (f := Entry.field) h
  rw [entries_walk, Record.map_field_entries] at hfield
  exact fits_of_mem_contents hfield

end View

/-! ## 2. Laying an update over a row -/

namespace Buffer

variable {b : Buffer}

theorem silent_reserve (b : Buffer) (additional : Nat) (growth : Growth) :
    (b.reserve additional growth).Silent := by
  unfold reserve
  split
  · exact Checked.silent_pure _
  · exact Checked.silent_throw _

theorem silent_replaceValue (b : Buffer) (e : Entry) (value : Bytes) :
    (b.replaceValue e value).Silent := by
  unfold replaceValue
  split
  · exact Checked.silent_throw _
  · split
    · exact Checked.silent_pure _
    · split
      · exact (b.silent_reserve _ _).bind fun _ => Checked.silent_pure _
      · exact Checked.silent_pure _

/-- A field that is appended is counted. -/
theorem append_granted {appended : Buffer} {f : Field} (h : (b.append f).answer = .ok appended) :
    (b.append f).events = [.count .recordAppend 1] ∧ appended.length = b.length + 1 := by
  unfold append at h ⊢
  obtain ⟨batch, haccepted, hwritten, hevents⟩ := Checked.granted_bind h
  obtain ⟨error, -, haccept⟩ | ⟨hcount, haccept⟩ := b.accept_cases b.batch f .granted
  · rw [haccept] at haccepted
    cases haccepted
  · rw [haccept] at haccepted
    cases haccepted
    cases hwritten
    rw [hevents, haccept, length_write b (b.batch.add f) hcount]
    exact ⟨rfl, rfl⟩

/-- **A field that is laid over a record is counted once**: as laid over another one, or as appended
    behind the others. -/
theorem put_granted {laid : Buffer} {r : Row} (h : b.Holds r) {f : Field} (hf : f.Fits)
    (hput : (b.put f).answer = .ok laid) :
    ∃ s, laid.Holds s ∧
      ((b.put f).events = [.count .mergeOverwrite 1] ∧ s.fields.length = r.fields.length ∨
        (b.put f).events = [.count .recordAppend 1, .count .mergeAppend 1] ∧
          s.fields.length = r.fields.length + 1) := by
  obtain ⟨s, hlay, hs⟩ := (hput ▸ agree_put h hf).granted
  refine ⟨s, hs, ?_⟩
  have hlookup := b.view.answer_locate? f.name
  rw [contents_of_holds h] at hlookup
  rw [Row.lay_granted hlay]
  unfold put at hput ⊢
  obtain ⟨found, hfound, hlaid, hevents⟩ := Checked.granted_bind hput
  rw [hevents, b.view.silent_locate? f.name found hfound, List.nil_append]
  rw [hfound] at hlookup
  obtain ⟨habsent, hnone⟩ | ⟨before, g, after, hfields, hg, hbefore, hsome⟩ :=
    Record.find?_entries 4 r.fields f.name
  · rw [hnone] at hlookup
    cases hlookup
    obtain ⟨appended, happended, -, hcounted⟩ := Checked.granted_bind hlaid
    refine .inr ⟨?_, ?_⟩
    · rw [hcounted, (append_granted happended).1]
      rfl
    · rw [Record.put_of_absent habsent, List.length_append]
      rfl
  · rw [hsome] at hlookup
    cases hlookup
    obtain ⟨replaced, hreplaced, -, hcounted⟩ := Checked.granted_bind hlaid
    refine .inl ⟨?_, ?_⟩
    · rw [hcounted, b.silent_replaceValue _ _ replaced hreplaced]
      rfl
    · simp only [hfields, Record.put_of_first hbefore hg, List.length_append, List.length_cons]

end Buffer

/-- **What is counted when `fields` fields were laid over a row of `start` fields.** -/
structure Laid (start fields : Nat) (events : List Event) (b : Buffer) : Prop where
  holds : ∃ r, b.Holds r ∧ r.fields.length = start + Event.total .mergeAppend events
  all : Event.total .mergeAppend events + Event.total .mergeOverwrite events = fields
  appends : Event.total .recordAppend events = Event.total .mergeAppend events

/-- One field more keeps that up. -/
theorem Laid.put {start fields : Nat} {events : List Event} {b laid : Buffer}
    (h : Laid start fields events b) {f : Field} (hf : f.Fits)
    (hput : (b.put f).answer = .ok laid) :
    Laid start (fields + 1) (events ++ (b.put f).events) laid := by
  obtain ⟨r, hholds, hlength⟩ := h.holds
  have hall := h.all
  have happends := h.appends
  obtain ⟨s, hs, ⟨hevents, hsame⟩ | ⟨hevents, hmore⟩⟩ := Buffer.put_granted hholds hf hput
  · rw [hevents]
    refine ⟨⟨s, hs, ?_⟩, ?_, ?_⟩
    · rw [hsame, hlength, Event.total_append]
      rfl
    · rw [Event.total_append, Event.total_append]
      show _ + 0 + (_ + 1) = _
      omega
    · rw [Event.total_append, Event.total_append, happends]
      rfl
  · rw [hevents]
    refine ⟨⟨s, hs, ?_⟩, ?_, ?_⟩
    · rw [hmore, hlength, Event.total_append]
      rfl
    · rw [Event.total_append, Event.total_append]
      show _ + 1 + (_ + 0) = _
      omega
    · rw [Event.total_append, Event.total_append, happends]
      rfl

/-- **Laying an update over a record counts each field of the update once.** -/
theorem Buffer.overlay_granted {b : Buffer} {r : Row} (h : b.Holds r) {update : View}
    (hgranted : (b.overlay update).value.outcome = .ok ()) :
    Laid r.fields.length update.length (b.overlay update).events
      (b.overlay update).value.buffer := by
  have hstart : Laid r.fields.length 0 [] b := ⟨⟨r, h, rfl⟩, rfl, rfl⟩
  have hstep : ∀ fields events b, Laid r.fields.length fields events b →
      ∀ e ∈ update.walk.entries, ∀ laid, (b.put e.field).answer = .ok laid →
        Laid r.fields.length (fields + 1) (events ++ (b.put e.field).events) laid :=
    fun _ _ _ hlaid _ he _ hput => hlaid.put (View.fits_of_mem_walk he) hput
  obtain ⟨hfault, hlaid⟩ := Walk.foldUntilRefused_induct hstep hstart hgranted
  have hevents : (b.overlay update).events =
      (update.walk.foldUntilRefused (fun b e => b.put e.field) b).events := List.append_nil _
  rw [View.length_entries_walk hfault] at hlaid
  rw [hevents]
  exact hlaid

/-! ## 3. Keeping fields -/

/-- **What is counted when `count` fields were kept.** -/
structure Picked (count : Nat) (events : List Event) : Prop where
  kept : Event.total .projectKept events = count
  appends : Event.total .recordAppend events = count

theorem Picked.nil : Picked 0 [] := ⟨rfl, rfl⟩

/-- One field more that is kept. -/
theorem Picked.keep {count : Nat} {events : List Event} (h : Picked count events) :
    Picked (count + 1) (events ++ [.count .recordAppend 1, .count .projectKept 1]) := by
  refine ⟨?_, ?_⟩
  · rw [Event.total_append, h.kept]
    rfl
  · rw [Event.total_append, h.appends]
    rfl

/-- One field more that is passed over. -/
theorem Picked.skip {count : Nat} {events : List Event} (h : Picked count events) :
    Picked count (events ++ [.count .projectSkipped 1]) := by
  refine ⟨?_, ?_⟩
  · rw [Event.total_append, h.kept]
    rfl
  · rw [Event.total_append, h.appends]
    rfl

/-- **A stored field is kept or passed over**, and counted as that. -/
theorem keepWanted_granted {wanted : Selection} {out : Buffer} {growth : Growth}
    {kept left : Buffer.Batch} {e : Entry}
    (h : (keepWanted wanted out growth kept e).answer = .ok left) :
    ((keepWanted wanted out growth kept e).events =
        [.count .recordAppend 1, .count .projectKept 1] ∧
      kept.count < Record.maxLength ∧ left = kept.add e.field) ∨
    ((keepWanted wanted out growth kept e).events = [.count .projectSkipped 1] ∧
      left = kept) := by
  unfold keepWanted at h ⊢
  split at h
  · rename_i hwants
    rw [if_pos hwants]
    obtain ⟨error, -, haccept⟩ | ⟨hcount, haccept⟩ := out.accept_cases kept e.field growth
    · rw [haccept] at h
      cases h
    · rw [haccept] at h ⊢
      cases h
      exact .inl ⟨rfl, hcount, rfl⟩
  · rename_i hwants
    rw [if_neg hwants]
    cases h
    exact .inr ⟨rfl, rfl⟩

/-- **A wanted name is kept and counted**, or passed over without a count. -/
theorem keepFirst_granted {v : View} {out left : Buffer} {name : Bytes}
    (h : (keepFirst v .granted out name).answer = .ok left) :
    ((keepFirst v .granted out name).events = [.count .recordAppend 1, .count .projectKept 1] ∧
      left.length = out.length + 1) ∨
    ((keepFirst v .granted out name).events = [] ∧ left = out) := by
  unfold keepFirst at h ⊢
  obtain ⟨there, hthere, h, hevents⟩ := Checked.granted_bind h
  rw [hevents, out.view.silent_contains name there hthere, List.nil_append]
  cases there with
  | true =>
    cases h
    exact .inr ⟨rfl, rfl⟩
  | false =>
    rw [if_neg Bool.false_ne_true] at h ⊢
    obtain ⟨found, hfound, h, hlooked⟩ := Checked.granted_bind h
    rw [hlooked, v.silent_get? name found hfound, List.nil_append]
    cases found with
    | none =>
      cases h
      exact .inr ⟨rfl, rfl⟩
    | some value =>
      obtain ⟨appended, happended, h, hcounted⟩ := Checked.granted_bind h
      obtain ⟨happend, hlength⟩ := Buffer.append_granted happended
      cases h
      refine .inl ⟨hcounted.trans ?_, hlength⟩
      rw [happend]
      rfl

/-- **What is counted of a pass through `fields` stored fields** that started with none kept. -/
structure Sifted (fields : Nat) (events : List Event) (kept : Buffer.Batch) : Prop where
  picked : Picked kept.count events
  room : kept.count ≤ Record.maxLength
  all : kept.count + Event.total .projectSkipped events = fields

/-- One stored field more keeps that up. -/
theorem Sifted.step {fields : Nat} {events : List Event} {kept left : Buffer.Batch}
    (h : Sifted fields events kept) {wanted : Selection} {out : Buffer} {growth : Growth}
    {e : Entry} (hstep : (keepWanted wanted out growth kept e).answer = .ok left) :
    Sifted (fields + 1) (events ++ (keepWanted wanted out growth kept e).events) left := by
  have hall := h.all
  obtain ⟨hevents, hroom, rfl⟩ | ⟨hevents, rfl⟩ := keepWanted_granted hstep
  · rw [hevents]
    refine ⟨h.picked.keep, hroom, ?_⟩
    rw [Event.total_append]
    show kept.count + 1 + (_ + 0) = _
    omega
  · rw [hevents]
    refine ⟨h.picked.skip, h.room, ?_⟩
    rw [Event.total_append]
    show _ + (_ + 1) = _
    omega

section

variable {v : View} {wanted : Selection} {out : Buffer}

/-- **In stored order every field is kept and counted, or passed over and counted.** -/
theorem projectBySource_granted (hempty : out.length = 0)
    (hgranted : (projectBySource v wanted out).value.outcome = .ok ()) :
    let ran := projectBySource v wanted out
    Picked ran.value.buffer.length ran.events ∧
      ran.value.buffer.length + Event.total .projectSkipped ran.events = v.length := by
  intro ran
  have hstep : ∀ fields events kept, Sifted fields events kept → ∀ e ∈ v.walk.entries,
      ∀ left, (keepWanted wanted out .granted kept e).answer = .ok left →
        Sifted (fields + 1) (events ++ (keepWanted wanted out .granted kept e).events) left :=
    fun _ _ _ hsifted _ _ _ hleft => hsifted.step hleft
  have hcount : out.batch.count = 0 := hempty
  have hstart : Sifted 0 [] out.batch :=
    ⟨hcount.symm ▸ .nil, hcount.symm ▸ Nat.zero_le _, hcount⟩
  obtain ⟨hfault, hsifted⟩ := Walk.foldUntilRefused_induct hstep hstart hgranted
  rw [View.length_entries_walk hfault] at hsifted
  have hevents : ran.events =
      (v.walk.foldUntilRefused (keepWanted wanted out .granted) out.batch).events :=
    List.append_nil _
  have hbuffer : ran.value.buffer = out.write
      (v.walk.foldUntilRefused (keepWanted wanted out .granted) out.batch).value.1 := rfl
  rw [hevents, hbuffer, Buffer.length_write _ _ hsifted.room]
  exact ⟨hsifted.picked, hsifted.all⟩

/-- **In asked order every field that is kept is counted**, and nothing is passed over. -/
theorem projectByRequest_granted (hempty : out.length = 0)
    (hgranted : (projectByRequest v wanted out).value.outcome = .ok ()) :
    let ran := projectByRequest v wanted out
    Picked ran.value.buffer.length ran.events ∧ Event.total .projectSkipped ran.events = 0 := by
  intro ran
  have hstep : ∀ (asked : Nat) events (kept : Buffer),
      Picked kept.length events ∧ Event.total .projectSkipped events = 0 → ∀ name ∈ wanted.names,
        ∀ left, (keepFirst v .granted kept name).answer = .ok left →
          Picked left.length (events ++ (keepFirst v .granted kept name).events) ∧
            Event.total .projectSkipped
              (events ++ (keepFirst v .granted kept name).events) = 0 := by
    rintro asked events kept ⟨hpicked, hnone⟩ name - left hleft
    obtain ⟨hevents, hlength⟩ | ⟨hevents, rfl⟩ := keepFirst_granted hleft
    · rw [hevents, hlength, Event.total_append, hnone]
      exact ⟨hpicked.keep, rfl⟩
    · rw [hevents, List.append_nil]
      exact ⟨hpicked, hnone⟩
  have hstart : Picked out.length [] ∧ Event.total .projectSkipped [] = 0 := by
    rw [hempty]
    exact ⟨.nil, rfl⟩
  have hlooked := v.silent_validate
  simp only [ran, projectByRequest, Metered.value_bind, Metered.events_bind, Checked.value_run]
    at hgranted ⊢
  cases hanswer : v.validate.answer with
  | error error => rw [hanswer] at hgranted; cases hgranted
  | ok u =>
    rw [hanswer] at hgranted
    have hasked := Checked.foldUntilRefused_induct (n := 0) hstep hstart hgranted
    show Picked _ (v.validate.events ++ (_ ++ [])) ∧
      Event.total .projectSkipped (v.validate.events ++ (_ ++ [])) = 0
    rw [hlooked u hanswer, List.nil_append, List.append_nil]
    exact hasked

/-- In either order what is kept is counted; what is passed over is counted in stored order. -/
theorem projectInOrder_granted {order : ProjectionOrder} (hempty : out.length = 0)
    (hgranted : (projectInOrder v wanted order out).value.outcome = .ok ()) :
    let ran := projectInOrder v wanted order out
    Picked ran.value.buffer.length ran.events ∧
      (order = .source →
        ran.value.buffer.length + Event.total .projectSkipped ran.events = v.length) ∧
      (order = .request → Event.total .projectSkipped ran.events = 0) := by
  intro ran
  cases order with
  | source =>
    obtain ⟨hpicked, hall⟩ := projectBySource_granted hempty hgranted
    refine ⟨hpicked, fun _ => hall, fun hother => ?_⟩
    cases hother
  | request =>
    obtain ⟨hpicked, hnone⟩ := projectByRequest_granted hempty hgranted
    refine ⟨hpicked, fun hother => ?_, fun _ => hnone⟩
    cases hother

end

end FieldRecords
