import FieldRecords.Proofs.InPlaceEdits
import FieldRecords.Proofs.Merging
import FieldRecords.Proofs.Projecting

/-!
# Sessions

A session keeps things under names, makes new ones and edits them, step by step, in any order and
with any arguments (`Handling.run`). With every step goes what becomes of asking for memory
meanwhile. Sessions over buffers and sessions over rows are the same steps with two ways to carry
them out, `buffers` and `rows`; what a step reads is another name of the session, or bytes from
elsewhere. Buffers are edited in place (`InPlace`).

A list has no room, so it asks for memory where a buffer may have room: it is told that what the
buffer has room for is granted (`Step.within`). Making a thing agrees (`agree_make`), editing it
agrees (`holds_edit`), so a step keeps every buffer of the session the written form of its row
(`Refines.step`), and so does a run (`Refines.run`). **After any steps every buffer is the written
form of the list that the same steps make of lists** (`buffers_are_written_rows`).
-/

namespace FieldRecords

/-! ## 1. Steps -/

/-- A record that a step reads: bytes from elsewhere, or what stands under a name. -/
inductive Source where
  | foreign (bytes : Bytes)
  | kept (name : Nat)

/-- The ways to make a record. -/
inductive Making where
  | new
  | withCapacity (capacity : Nat)
  | withConfig (config : Config)
  | fromFields (fields : List Field)
  | ofBytes (bytes : Bytes)
  | clone (name : Nat)

/-- The ways to change a record. -/
inductive Edit where
  | append (f : Field)
  | extendFields (fields : List Field)
  | clear
  | reserve (additional : Nat)
  | assign (source : Source)
  | merge (base update : Source)
  | project (source : Source) (wanted : Selection) (order : ProjectionOrder)

/-- One step: a record is made under a name, or the record under a name is changed, with what
    becomes of asking for memory meanwhile. -/
inductive Step where
  | make (name : Nat) (making : Making) (growth : Growth)
  | edit (name : Nat) (edit : Edit) (growth : Growth)

/-- There is memory for whatever the step asks for. -/
def Step.Granted : Step → Prop
  | make _ _ growth | edit _ _ growth => growth = .granted

/-- Why a step was refused. -/
inductive Refusal where
  | fault (fault : Fault)
  | error (error : CodecError)
deriving DecidableEq

/-- What stands under every name. -/
abbrev Session (α : Type) : Type := Nat → α

/-- A session with something else under one name. -/
def Session.set {α : Type} (s : Session α) (name : Nat) (a : α) : Session α :=
  fun other => if other = name then a else s other

/-- A way to carry out steps. A refused making leaves the session as it was; what a refused edit
    leaves is up to the edit. -/
structure Handling (α : Type) where
  make : Session α → Making → Growth → Except Refusal α
  edit : Session α → α → Edit → Growth → α × Except CodecError Unit

namespace Handling

variable {α : Type}

/-- One step, and how it went. -/
def step (h : Handling α) (s : Session α) : Step → Session α × Except Refusal Unit
  | .make name making growth =>
    match h.make s making growth with
    | .ok a => (s.set name a, .ok ())
    | .error refusal => (s, .error refusal)
  | .edit name edit growth =>
    let (a, outcome) := h.edit s (s name) edit growth
    (s.set name a, outcome.mapError .error)

/-- One step after the other, and how each went. -/
def run (h : Handling α) (s : Session α) : List Step → Session α × List (Except Refusal Unit)
  | [] => (s, [])
  | step :: steps =>
    let (s, outcome) := h.step s step
    let (s, outcomes) := h.run s steps
    (s, outcome :: outcomes)

theorem run_cons (h : Handling α) (s : Session α) (step : Step) (steps : List Step) :
    h.run s (step :: steps) =
      ((h.run (h.step s step).1 steps).1,
        (h.step s step).2 :: (h.run (h.step s step).1 steps).2) := rfl

end Handling

/-! ## 2. Steps on buffers -/

namespace Source

/-- The view that a step reads: of bytes from elsewhere, refused if not even the count is there, or
    of a buffer. -/
def view (s : Session Buffer) : Source → Except CodecError View
  | foreign bytes => (View.ofBytes bytes).answer
  | kept name => .ok (s name).view

/-- The same over rows: what the bytes hold, or the fields of a row. -/
def contents (t : Session Row) : Source → Except CodecError Contents
  | foreign bytes =>
    if bytes.length < 4 then .error (.malformed bytes.length .missingHeader)
    else .ok (View.mk bytes).contents
  | kept name => .ok ⟨(t name).fields, none⟩

end Source

/-- A buffer, made in one of the ways. -/
def Making.buffer (s : Session Buffer) (growth : Growth) : Making → Except Refusal Buffer
  | new => .ok Buffer.new
  | withCapacity capacity => (Buffer.withCapacity capacity).mapError .fault
  | withConfig config => (Buffer.withConfig config).mapError .fault
  | fromFields fields => (Buffer.fromFields fields growth).answer.mapError .error
  | ofBytes bytes => (Buffer.ofBytes bytes).answer.mapError .error
  | clone name => .ok (s name).clone

/-- A buffer, changed in one of the ways. -/
def Edit.buffer (s : Session Buffer) (b : Buffer) (growth : Growth) : Edit → Edited
  | append f => ((InPlace.append f growth).edit b).value
  | extendFields fields => ((InPlace.extendFields fields growth).edit b).value
  | clear => ⟨b.clear.value, .ok ()⟩
  | reserve additional => ((InPlace.reserve additional growth).edit b).value
  | assign source =>
    match source.view s with
    | .ok v => ((InPlace.assign v growth).edit b).value
    | .error error => ⟨b, .error error⟩
  | merge base update =>
    match (base.view s).bind fun base => (update.view s).map fun update => (base, update) with
    | .ok (base, update) => (mergeInto base update b growth).value
    | .error error => ⟨b, .error error⟩
  | project source wanted order =>
    match source.view s with
    | .ok v => (FieldRecords.project v wanted order b growth).value
    | .error error => ⟨b, .error error⟩

/-- Steps on buffers. -/
def buffers : Handling Buffer where
  make s making growth := making.buffer s growth
  edit s b edit growth := ((edit.buffer s b growth).buffer, (edit.buffer s b growth).outcome)

/-! ## 3. Steps on rows -/

/-- A row, made in one of the ways. -/
def Making.row (t : Session Row) (growth : Growth) : Making → Except Refusal Row
  | new => .ok ⟨Record.maxLength, []⟩
  | withCapacity capacity => (Row.withCapacity capacity).mapError .fault
  | withConfig config => (Row.withConfig config).mapError .fault
  | fromFields fields => (Row.ofFields fields growth).mapError .error
  | ofBytes bytes => (Row.ofBytes bytes).mapError .error
  | clone name => .ok (t name)

/-- A row, changed in one of the ways. -/
def Edit.row (t : Session Row) (r : Row) (growth : Growth) : Edit → Row × Except CodecError Unit
  | append f => r.orKeep (r.append f growth)
  | extendFields fields => r.extend fields growth
  | clear => (r.clear, .ok ())
  | reserve additional => r.orKeep (r.reserve additional growth)
  | assign source => r.orKeep ((source.contents t).bind fun c => r.assign c growth)
  | merge base update =>
    match (base.contents t).bind fun base => (update.contents t).map fun update => (base, update)
    with
    | .ok (base, update) => r.orClear (r.overlay base update growth)
    | .error error => (r, .error error)
  | project source wanted order =>
    match source.contents t with
    | .ok c => r.orClear (r.project c wanted order growth)
    | .error error => (r, .error error)

/-- Steps on rows. -/
def rows : Handling Row where
  make t making growth := making.row t growth
  edit t r edit growth := edit.row t r growth

/-- **The step as a list meets it**: what the buffer has room for is granted, and a buffer that is
    made has the usual room. -/
def Step.within (s : Session Buffer) : Step → Step
  | make name making growth => make name making (growth.within Buffer.new.room)
  | edit name change growth => edit name change (growth.within (s name).room)

/-- The steps as the lists meet them. -/
def withinRoom (s : Session Buffer) : List Step → List Step
  | [] => []
  | step :: steps => step.within s :: withinRoom (buffers.step s step).1 steps

/-! ## 4. What a step makes of a list -/

namespace Source

/-- The fields that a step reads. -/
def fields (t : Session Row) : Source → List Field
  | foreign bytes => (View.mk bytes).contents.fields
  | kept name => (t name).fields

/-- What is to be read has at least a count; not every byte string has one. -/
def HasCount : Source → Prop
  | foreign bytes => 4 ≤ bytes.length
  | kept _ => True

/-- A step reads its source unless there is not even a count. -/
theorem contents_cases (t : Session Row) (source : Source) :
    (source.HasCount ∧ ∃ c, source.contents t = .ok c ∧ c.fields = source.fields t) ∨
    (¬ source.HasCount ∧ ∃ error, source.contents t = .error error) := by
  cases source with
  | foreign bytes =>
    unfold contents
    by_cases hshort : bytes.length < 4
    · exact .inr ⟨Nat.not_le_of_lt hshort, _, if_pos hshort⟩
    · exact .inl ⟨Nat.le_of_not_lt hshort, _, if_neg hshort, rfl⟩
  | kept name => exact .inl ⟨trivial, _, rfl, rfl⟩

end Source

/-- The row that is made, if making it is granted. -/
def Making.granted (t : Session Row) : Making → Row
  | new => ⟨Record.maxLength, []⟩
  | withCapacity _ => ⟨Record.maxLength, []⟩
  | withConfig config => ⟨min config.maxFieldLength Record.maxLength, []⟩
  | fromFields fields => ⟨Record.maxLength, fields⟩
  | ofBytes bytes => ⟨Record.maxLength, (View.mk bytes).contents.fields⟩
  | clone name => t name

namespace Edit

/-- The fields that an edit leaves if it is granted. -/
def granted (t : Session Row) (fields : List Field) : Edit → List Field
  | append f => fields ++ [f]
  | extendFields more => fields ++ more
  | clear => []
  | reserve _ => fields
  | assign source => source.fields t
  | merge base update => Record.overlay (base.fields t) (update.fields t)
  | project source wanted order => Record.kept (source.fields t) wanted order

/-- **The fields that a refused edit leaves**: of several appended fields those before the first
    refused one stay, a merge or a projection leaves no field, and every other edit leaves the
    fields as they were. So does a merge or a projection that has nothing to read. -/
def Leaves (growth : Growth) (r : Row) (error : CodecError) (left : List Field) : Edit → Prop
  | extendFields more =>
    ∃ before f after, more = before ++ f :: after ∧ left = r.fields ++ before ∧
      r.extend before growth = ({ r with fields := left }, .ok ()) ∧
      Row.append { r with fields := left } f growth = .error error
  | merge base update =>
    (base.HasCount ∧ update.HasCount → left = []) ∧
      (¬ (base.HasCount ∧ update.HasCount) → left = r.fields)
  | project source _ _ => (source.HasCount → left = []) ∧ (¬ source.HasCount → left = r.fields)
  | _ => left = r.fields

end Edit

namespace Row

variable {r : Row} {fields : List Field} {answer : Except CodecError Row}

theorem orKeep_cases (h : ∀ s, answer = .ok s → s = { r with fields }) :
    r.orKeep answer = ({ r with fields }, .ok ()) ∨
      ∃ left error, left = r.fields ∧
        r.orKeep answer = ({ r with fields := left }, .error error) := by
  cases answer with
  | ok s =>
    rw [h s rfl]
    exact .inl rfl
  | error error => exact .inr ⟨_, error, rfl, rfl⟩

theorem orClear_cases (h : ∀ s, answer = .ok s → s = { r with fields }) :
    r.orClear answer = ({ r with fields }, .ok ()) ∨
      ∃ error, r.orClear answer = (r.clear, .error error) := by
  cases answer with
  | ok s =>
    rw [h s rfl]
    exact .inl rfl
  | error error => exact .inr ⟨error, rfl⟩

end Row

/-- What is made is what was granted. -/
theorem Making.row_granted {t : Session Row} {making : Making} {growth : Growth} {r : Row}
    (h : making.row t growth = .ok r) : r = making.granted t := by
  have hanswer : ∀ {ε : Type} {x : Except ε Row} {f : ε → Refusal},
      x.mapError f = .ok r → x = .ok r := by
    intro ε x f hx
    cases x with
    | ok s => cases hx; rfl
    | error error => cases hx
  cases making with
  | new => cases h; rfl
  | withCapacity capacity => exact Row.withCapacity_granted (hanswer h)
  | withConfig config => exact Row.withConfig_granted (hanswer h)
  | fromFields fields => exact Row.ofFields_granted (hanswer h)
  | ofBytes bytes => exact Row.ofBytes_granted (hanswer h)
  | clone name => cases h; rfl

/-- **An edit is granted and leaves its result, or is refused and leaves what it leaves then**; the
    limit stays. -/
theorem Edit.row_cases (t : Session Row) (r : Row) (growth : Growth) (edit : Edit) :
    edit.row t r growth = ({ r with fields := edit.granted t r.fields }, .ok ()) ∨
    ∃ left error, edit.Leaves growth r error left ∧
      edit.row t r growth = ({ r with fields := left }, .error error) := by
  cases edit with
  | append f => exact Row.orKeep_cases fun s hs => Row.append_granted hs
  | extendFields more =>
    cases h : (r.extend more growth).2 with
    | ok u =>
      refine .inl (Prod.ext ?_ h)
      exact Row.extend_granted h
    | error error =>
      obtain ⟨before, f, after, hmore, hleft, hbefore, hf⟩ := Row.extend_refused h
      rw [hleft] at hbefore hf
      exact .inr ⟨_, error, ⟨before, f, after, hmore, rfl, hbefore, hf⟩, Prod.ext hleft h⟩
  | clear => exact .inl rfl
  | reserve additional =>
    have hkept : ∀ s, r.reserve additional growth = .ok s → s = { r with fields := r.fields } :=
      fun s hs => Row.reserve_granted hs
    exact Row.orKeep_cases hkept
  | assign source =>
    refine Row.orKeep_cases fun s hs => ?_
    rcases source.contents_cases t with ⟨-, c, hc, hfields⟩ | ⟨-, error, herror⟩
    · rw [hc] at hs
      show s = { r with fields := source.fields t }
      rw [← hfields]
      exact Row.assign_granted hs
    · rw [herror] at hs
      cases hs
  | merge base update =>
    simp only [Edit.row]
    rcases base.contents_cases t with ⟨hbase, c, hc, hfields⟩ | ⟨hbase, error, herror⟩
    · rcases update.contents_cases t with ⟨hupdate, d, hd, hchanges⟩ | ⟨hupdate, error, herror⟩
      · rw [hc, hd]
        show r.orClear (r.overlay c d growth) = _ ∨ _
        refine (Row.orClear_cases fun s hs => ?_).imp_right fun ⟨error, h⟩ =>
          ⟨[], error, ⟨fun _ => rfl, fun hnot => absurd ⟨hbase, hupdate⟩ hnot⟩, h⟩
        rw [Edit.granted, ← hfields, ← hchanges]
        exact Row.overlay_granted hs
      · rw [hc, herror]
        exact .inr ⟨_, error, ⟨fun hboth => absurd hboth.2 hupdate, fun _ => rfl⟩, rfl⟩
    · rw [herror]
      exact .inr ⟨_, error, ⟨fun hboth => absurd hboth.1 hbase, fun _ => rfl⟩, rfl⟩
  | project source wanted order =>
    simp only [Edit.row]
    rcases source.contents_cases t with ⟨hcount, c, hc, hfields⟩ | ⟨hcount, error, herror⟩
    · rw [hc]
      refine (Row.orClear_cases fun s hs => ?_).imp_right fun ⟨error, h⟩ =>
        ⟨[], error, ⟨fun _ => rfl, fun hnot => absurd hcount hnot⟩, h⟩
      rw [Edit.granted, ← hfields]
      exact Row.project_granted hs
    · rw [herror]
      exact .inr ⟨_, error, ⟨fun h => absurd h hcount, fun _ => rfl⟩, rfl⟩

/-- **No edit changes the limit**, whether it is granted or refused. -/
theorem Edit.limit_row (t : Session Row) (r : Row) (growth : Growth) (edit : Edit) :
    (edit.row t r growth).1.limit = r.limit := by
  rcases edit.row_cases t r growth with h | ⟨left, error, -, h⟩
  · rw [h]
  · rw [h]

/-! ## 5. Steps agree -/

/-- **Every buffer of the session holds its row**, and no limit is beyond what can be written. -/
def Refines (s : Session Buffer) (t : Session Row) : Prop :=
  ∀ name, (s name).Holds (t name) ∧ (t name).limit ≤ Record.maxLength

namespace Refines

variable {s : Session Buffer} {t : Session Row}

theorem set (h : Refines s t) (name : Nat) {b : Buffer} {r : Row} (hholds : b.Holds r)
    (hlimit : r.limit ≤ Record.maxLength) : Refines (s.set name b) (t.set name r) := by
  intro other
  unfold Session.set
  split
  · exact ⟨hholds, hlimit⟩
  · exact h other

/-- **What a step reads is what the row says**, and a header is there. -/
theorem agree_view (h : Refines s t) (source : Source) :
    Agree (fun v c => v.contents = c ∧ 4 ≤ v.bytes.length) (source.view s) (source.contents t) := by
  cases source with
  | foreign bytes =>
    rw [Source.view, Source.contents, View.answer_ofBytes]
    split
    · exact .error _
    · rename_i hheader
      exact .ok ⟨rfl, Nat.le_of_not_lt hheader⟩
  | kept name =>
    have hholds := (h name).1
    exact .ok ⟨Buffer.contents_of_holds hholds, hholds.written.header⟩

/-- **Making a buffer agrees with making a row.** -/
theorem agree_make (h : Refines s t) (making : Making) (growth : Growth) :
    Agree Buffer.Holds (making.buffer s growth)
      (making.row t (growth.within Buffer.new.room)) := by
  cases making with
  | new => exact .ok (Buffer.holds_ofCapacity _)
  | withCapacity capacity => exact (Buffer.agree_withCapacity capacity).mapError _
  | withConfig config => exact (Buffer.agree_withConfig config).mapError _
  | fromFields fields => exact (Buffer.agree_fromFields_under fields growth).mapError _
  | ofBytes bytes => exact (Buffer.agree_ofBytes bytes).mapError _
  | clone name => exact .ok (Buffer.holds_clone (h name).1)

/-- No row is made with a limit beyond what can be written. -/
theorem limit_granted_le (h : Refines s t) (making : Making) :
    (making.granted t).limit ≤ Record.maxLength := by
  cases making with
  | withConfig config => exact Nat.min_le_right _ _
  | clone name => exact (h name).2
  | _ => exact Nat.le_refl _

/-- An edit that keeps what it is refused for leaves the buffer and the row as they were. -/
theorem holds_keeping {growth memory : Growth} {b : Buffer} {r : Row} (hb : b.Holds r)
    {x : Checked Buffer} {y : Except CodecError Row}
    (h : Agree (Buffer.HoldsUnder growth memory) x.answer y) :
    (b.keeping x).value.Holds (r.orKeep y) := by
  show (b.orKeep x.answer).Holds (r.orKeep y)
  generalize x.answer = answer at h
  cases h with
  | ok h => exact ⟨h.holds, rfl⟩
  | error error => exact ⟨hb, rfl⟩

/-- **Editing a buffer agrees with editing its row.** -/
theorem holds_edit (h : Refines s t) {b : Buffer} {r : Row} (hb : b.Holds r)
    (hr : r.limit ≤ Record.maxLength) (edit : Edit) (growth : Growth) :
    (edit.buffer s b growth).Holds (edit.row t r (growth.within b.room)) := by
  have hwritable : ∀ f : Field, f.WritableUnder r.limit := Field.writableUnder_of_le hr
  have hunder := hb.under growth
  cases edit with
  | append f =>
    rw [Edit.buffer, InPlace.edit_append]
    exact holds_keeping hb (Buffer.agree_append_under hunder (hwritable f))
  | extendFields fields =>
    rw [Edit.buffer, InPlace.edit_extendFields, Checked.value_map]
    exact Buffer.holds_appendAll hunder fun f _ => hwritable f
  | clear => exact ⟨Buffer.holds_clear hb.limit_eq, rfl⟩
  | reserve additional =>
    rw [Edit.buffer, InPlace.edit_reserve]
    exact holds_keeping hb (Buffer.agree_reserve hunder additional)
  | assign source =>
    have hsource := h.agree_view source
    simp only [Edit.buffer, Edit.row]
    generalize source.view s = x at hsource ⊢
    generalize source.contents t = y at hsource ⊢
    cases hsource with
    | error error => exact ⟨hb, rfl⟩
    | ok hc =>
      obtain ⟨rfl, hheader⟩ := hc
      show Edited.Holds ((InPlace.assign _ growth).edit b).value (r.orKeep (r.assign _ _))
      rw [InPlace.edit_assign]
      exact holds_keeping hb (Buffer.agree_assign_under hb.limit_eq rfl hheader)
  | merge base update =>
    have hbase := h.agree_view base
    have hupdate := h.agree_view update
    simp only [Edit.buffer, Edit.row]
    generalize base.view s = x at hbase ⊢
    generalize base.contents t = y at hbase ⊢
    generalize update.view s = x' at hupdate ⊢
    generalize update.contents t = y' at hupdate ⊢
    cases hbase with
    | error error => exact ⟨hb, rfl⟩
    | ok hbase =>
      cases hupdate with
      | error error => exact ⟨hb, rfl⟩
      | ok hupdate =>
        obtain ⟨rfl, hheader⟩ := hbase
        obtain ⟨rfl, -⟩ := hupdate
        exact holds_mergeInto_under hb.limit_eq rfl hheader _
  | project source wanted order =>
    have hsource := h.agree_view source
    simp only [Edit.buffer, Edit.row]
    generalize source.view s = x at hsource ⊢
    generalize source.contents t = y at hsource ⊢
    cases hsource with
    | error error => exact ⟨hb, rfl⟩
    | ok hc =>
      obtain ⟨rfl, -⟩ := hc
      have hroom := Buffer.room_clear hb.written.header
      exact holds_project_under hb.limit_eq (congrArg growth.within hroom) _ wanted order

/-- **A step keeps every buffer the written form of its row**, and goes alike for both. -/
theorem step (h : Refines s t) (step : Step) :
    Refines (buffers.step s step).1 (rows.step t (step.within s)).1 ∧
      (buffers.step s step).2 = (rows.step t (step.within s)).2 := by
  cases step with
  | make name making growth =>
    have hmake := h.agree_make making growth
    simp only [Step.within, Handling.step, buffers, rows]
    generalize making.buffer s growth = x at hmake ⊢
    generalize hrow : making.row t (growth.within Buffer.new.room) = y at hmake ⊢
    cases hmake with
    | ok hmade =>
      refine ⟨h.set name hmade ?_, rfl⟩
      rw [Making.row_granted hrow]
      exact h.limit_granted_le making
    | error refusal => exact ⟨h, rfl⟩
  | edit name edit growth =>
    obtain ⟨hholds, hlimit⟩ := h name
    obtain ⟨hbuffer, houtcome⟩ := h.holds_edit hholds hlimit edit growth
    have hkept := edit.limit_row t (t name) (growth.within (s name).room)
    exact ⟨h.set name hbuffer (hkept ▸ hlimit), congrArg (Except.mapError Refusal.error) houtcome⟩

/-- **A run keeps every buffer the written form of its row**, and every step of it goes alike for
    both. -/
theorem run (h : Refines s t) (steps : List Step) :
    Refines (buffers.run s steps).1 (rows.run t (withinRoom s steps)).1 ∧
      (buffers.run s steps).2 = (rows.run t (withinRoom s steps)).2 := by
  induction steps generalizing s t with
  | nil => exact ⟨h, rfl⟩
  | cons first steps ih =>
    obtain ⟨hfirst, houtcome⟩ := h.step first
    obtain ⟨hrest, houtcomes⟩ := ih hfirst
    rw [withinRoom, Handling.run_cons, Handling.run_cons, houtcome, houtcomes]
    exact ⟨hrest, rfl⟩

end Refines

/-! ## 6. Runs -/

/-- **With memory for everything lists meet just the same steps.** -/
theorem withinRoom_of_granted {steps : List Step} (h : ∀ step ∈ steps, step.Granted)
    (s : Session Buffer) : withinRoom s steps = steps := by
  induction steps generalizing s with
  | nil => rfl
  | cons first steps ih =>
    have hfirst : first.within s = first := by
      have hgranted := h first List.mem_cons_self
      cases first with
      | make name making growth =>
        obtain rfl : growth = .granted := hgranted
        rw [Step.within, Growth.within_granted]
      | edit name edit growth =>
        obtain rfl : growth = .granted := hgranted
        rw [Step.within, Growth.within_granted]
    rw [withinRoom, hfirst, ih fun step hstep => h step (List.mem_cons_of_mem _ hstep)]

/-- A step that makes a row makes what it was asked for, or leaves the session as it was. -/
theorem rows_step_make (t : Session Row) (name : Nat) (making : Making) (growth : Growth) :
    let left := rows.step t (.make name making growth)
    left.2 = .ok () ∧ left.1 = t.set name (making.granted t) ∨
      ∃ refusal, left.2 = .error refusal ∧ left.1 = t := by
  simp only [Handling.step, rows]
  cases hrow : making.row t growth with
  | ok r =>
    rw [Making.row_granted hrow]
    exact .inl ⟨rfl, rfl⟩
  | error refusal => exact .inr ⟨refusal, rfl, rfl⟩

/-- A step that edits a row leaves the result of the edit, or what the refused edit leaves. The
    limit stays, and so does every other row. -/
theorem rows_step_edit (t : Session Row) (name : Nat) (edit : Edit) (growth : Growth) :
    let left := rows.step t (.edit name edit growth)
    ∃ fields, left.1 = t.set name { t name with fields } ∧
      (left.2 = .ok () ∧ fields = edit.granted t (t name).fields ∨
        ∃ error, left.2 = .error (.error error) ∧
          edit.Leaves growth (t name) error fields) := by
  simp only [Handling.step, rows]
  rcases edit.row_cases t (t name) growth with h | ⟨fields, error, hleaves, h⟩
  · rw [h]
    exact ⟨_, rfl, .inl ⟨rfl, rfl⟩⟩
  · rw [h]
    exact ⟨_, rfl, .inr ⟨_, rfl, hleaves⟩⟩

/-- **After any steps, with any arguments and whatever becomes of asking for memory, every buffer is
    the written form of the list that the same steps make of lists**, and every step was granted or
    refused alike. The buffer has the limit of the row, which no edit changes, as many fields as
    the list, and as many bytes as the list takes.

    What the next step makes of the lists is told along with it: a granted step leaves its result
    (`Making.granted`, `Edit.granted`), a refused making leaves everything as it was, and a refused
    edit leaves what `Edit.Leaves` says, be it refused for lack of memory or for another reason. If
    there was memory for everything, the steps on lists are the very same. -/
theorem buffers_are_written_rows (steps : List Step) :
    let start : Session Buffer := fun _ => Buffer.new
    let reached := buffers.run start steps
    let listed := rows.run (fun _ => ⟨Record.maxLength, []⟩) (withinRoom start steps)
    reached.2 = listed.2 ∧
    (∀ name,
      Record.Fits (listed.1 name).fields ∧
      (reached.1 name).bytes = Record.encode (listed.1 name).fields ∧
      (reached.1 name).limit = (listed.1 name).limit ∧
      (reached.1 name).length = (listed.1 name).fields.length ∧
      (reached.1 name).bytes.length = Record.size (listed.1 name).fields) ∧
    (∀ name making growth,
      let left := rows.step listed.1 (.make name making growth)
      left.2 = .ok () ∧ left.1 = listed.1.set name (making.granted listed.1) ∨
        ∃ refusal, left.2 = .error refusal ∧ left.1 = listed.1) ∧
    (∀ name edit growth,
      (∀ other, ((buffers.step reached.1 (.edit name edit growth)).1 other).limit =
        (reached.1 other).limit) ∧
      let left := rows.step listed.1 (.edit name edit growth)
      ∃ fields, left.1 = listed.1.set name { listed.1 name with fields } ∧
        (left.2 = .ok () ∧ fields = edit.granted listed.1 (listed.1 name).fields ∨
          ∃ error, left.2 = .error (.error error) ∧
            edit.Leaves growth (listed.1 name) error fields)) ∧
    ((∀ step ∈ steps, step.Granted) → withinRoom start steps = steps) := by
  intro start reached listed
  have hstart : Refines start (fun _ => ⟨Record.maxLength, []⟩) :=
    fun _ => ⟨Buffer.holds_ofCapacity _, Nat.le_refl _⟩
  obtain ⟨hreached, houtcomes⟩ := hstart.run steps
  refine ⟨houtcomes, fun name => ?_, rows_step_make listed.1,
    fun name edit growth => ⟨fun other => ?_, rows_step_edit listed.1 name edit growth⟩,
    fun hgranted => withinRoom_of_granted hgranted start⟩
  · have hholds : (reached.1 name).Holds (listed.1 name) := (hreached name).1
    exact ⟨hholds.written.fits, hholds.written.eq_encode, hholds.limit_eq,
      Buffer.length_of_holds hholds, hholds.written.length_eq⟩
  · have hnext := ((hreached.step (.edit name edit growth)).1 other).1.limit_eq
    have hnow : (reached.1 other).limit = (listed.1 other).limit := (hreached other).1.limit_eq
    rw [hnext, hnow]
    obtain ⟨fields, hleft, -⟩ :=
      rows_step_edit listed.1 name edit (growth.within (reached.1 name).room)
    show ((rows.step listed.1 (.edit name edit (growth.within (reached.1 name).room))).1
      other).limit = _
    rw [hleft, Session.set]
    split
    · rename_i hsame
      rw [hsame]
    · rfl

/-- Memory runs short in five of eight edits: a field is not appended; of two fields one is; a
    record is not taken over; room is not made; a merge is refused on the way and leaves no field.
    With the room that was made before, later edits are granted without any memory. -/
theorem edits_short_of_memory :
    let f : Field := ⟨[97], [1]⟩
    let g : Field := ⟨[98], [2]⟩
    let start : Session Buffer := fun _ => Buffer.new
    let edits : List Step := [.make 0 (.withCapacity 4) .granted, .edit 0 (.append f) .granted,
      .edit 0 (.append g) (.upTo 20), .edit 0 (.extendFields [f, g]) (.upTo 30),
      .edit 0 (.assign (.foreign (Record.encode [f, f, f]))) (.upTo 30),
      .edit 0 (.reserve 10) (.upTo 30)]
    let merges : List Step := [.edit 0 (.merge (.kept 0) (.foreign (Record.encode [g]))) (.upTo 30),
      .edit 0 (.append g) (.upTo 0), .edit 0 (.reserve 10) (.upTo 0)]
    let refused : Except Refusal Unit := .error (.error (.allocation .allocatorRefused))
    (buffers.run start edits).2 = [.ok (), .ok (), refused, refused, refused, refused] ∧
      ((buffers.run start edits).1 0).bytes = Record.encode [f, f] ∧
      (buffers.run start (edits ++ merges)).2 =
        [.ok (), .ok (), refused, refused, refused, refused, refused, .ok (), .ok ()] ∧
      ((buffers.run start (edits ++ merges)).1 0).bytes = Record.encode [g] ∧
      withinRoom start [.make 0 .new .granted] = [.make 0 .new .granted] := by
  -- without the abbreviations both runs are closed terms, which can be evaluated
  dsimp only
  refine ⟨(buffers_are_written_rows _).1.trans ?_,
    ((buffers_are_written_rows _).2.1 0).2.1.trans (congrArg Record.encode ?_),
    (buffers_are_written_rows _).1.trans ?_,
    ((buffers_are_written_rows _).2.1 0).2.1.trans (congrArg Record.encode ?_),
    (buffers_are_written_rows _).2.2.2.2 fun step hstep => ?_⟩
  · rfl
  · rfl
  · rfl
  · rfl
  · rw [List.mem_singleton.1 hstep]
    rfl

end FieldRecords
