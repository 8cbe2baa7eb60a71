import FieldRecords.Proofs.Edits
import FieldRecords.Record.InPlace

/-!
# Changes in place leave nothing half done

A change in place writes field by field and part by part, and could be refused between any two of
its steps. It is not: whatever may refuse it comes before the first byte is written, so **a change
that is refused leaves the buffer as it was**, and one that is granted leaves what `Buffer.append`
and its like say. That is one equation for each change (`InPlace.edit_append` and so on), for every
buffer and whatever becomes of asking for memory. Of several fields those before the refused one
stay, and they may as well be written all at once (`InPlace.edit_extendFields_at_once`).
-/

namespace FieldRecords

/-- What is left if a refusal leaves the buffer as it was. -/
def Buffer.orKeep (b : Buffer) : Except CodecError Buffer → Edited
  | .ok edited => ⟨edited, .ok ()⟩
  | .error error => ⟨b, .error error⟩

/-- The same of an answer and what it reports. -/
def Buffer.keeping (b : Buffer) (x : Checked Buffer) : Metered Edited := b.orKeep <$> x.run

namespace Buffer

/-! ## 1. Bytes that are written in parts -/

/-- Room that was made for the bytes need not be made again. -/
theorem withBytes_grow (b : Buffer) {capacity : Nat} {bytes : Bytes}
    (h : capacity ≤ max b.room bytes.length) :
    (b.grow capacity).withBytes bytes = b.withBytes bytes := by
  rw [withBytes, room_grow, withBytes]
  congr 1
  omega

/-- Of bytes that were exchanged for others nothing is left but the room, which is there, or which
    the others take anyway. -/
theorem withBytes_withBytes (b : Buffer) {first last : Bytes}
    (h : first.length ≤ max b.room last.length) :
    (b.withBytes first).withBytes last = b.withBytes last := by
  rw [withBytes, room_withBytes, withBytes]
  congr 1
  omega

/-- **Bytes may be written in parts.** -/
theorem push_push (b : Buffer) (first last : Bytes) :
    (b.push first).push last = b.push (first ++ last) := by
  have hlength : (b.bytes ++ first).length ≤ (b.bytes ++ (first ++ last)).length := by
    simp only [List.length_append]
    omega
  show (b.withBytes (b.bytes ++ first)).withBytes (b.bytes ++ first ++ last) = _
  rw [List.append_assoc, withBytes_withBytes _ (Nat.le_trans hlength (Nat.le_max_right _ _)), push]

theorem push_grow (b : Buffer) (bytes : Bytes) :
    (b.grow (b.bytes.length + bytes.length)).push bytes = b.push bytes := by
  refine withBytes_grow b ?_
  rw [List.length_append]
  exact Nat.le_max_right _ _

end Buffer

namespace InPlace

variable {α β : Type} {b c : Buffer}

/-! ## 2. Steps -/

/-- A step that is granted and reports nothing is followed by the next one. -/
theorem run_bind_ok {x : InPlace α} {a : α} (h : x.run.run b = pure (.ok a, c))
    (f : α → InPlace β) : (x >>= f).run.run b = (f a).run.run c := by
  show (x.run.run b >>= fun p => (ExceptT.bindCont f p.1).run p.2) = _
  rw [h, pure_bind]
  rfl

/-- A step that is refused is the last one. -/
theorem run_bind_error {x : InPlace α} {error : CodecError}
    (h : x.run.run b = pure (.error error, c)) (f : α → InPlace β) :
    (x >>= f).run.run b = pure (.error error, c) := by
  show (x.run.run b >>= fun p => (ExceptT.bindCont f p.1).run p.2) = _
  rw [h, pure_bind]
  rfl

/-- **One change after another** starts from what the one before left, if it was granted. -/
theorem edit_bind (x y : InPlace Unit) (b : Buffer) :
    (x >>= fun _ => y).edit b = do
      let left ← x.edit b
      match left.outcome with
      | .ok () => y.edit left.buffer
      | .error error => return ⟨left.buffer, .error error⟩ := by
  show ((x.run.run b >>= fun p => (ExceptT.bindCont (fun _ => y) p.1).run p.2) >>= _) =
    ((x.run.run b >>= _) >>= _)
  rw [bind_assoc, bind_assoc]
  congr 1
  funext ⟨outcome, left⟩
  cases outcome <;> rfl

/-- Looking at something else changes nothing. -/
theorem edit_look_bind (x : Checked α) (f : α → InPlace Unit) (b : Buffer) :
    (look x >>= f).edit b = do
      match ← x.run with
      | .ok a => (f a).edit b
      | .error error => return ⟨b, .error error⟩ := by
  show (((x.run >>= fun answer => pure (answer, b)) >>= fun p =>
    (ExceptT.bindCont f p.1).run p.2) >>= _) = x.run >>= _
  rw [bind_assoc, bind_assoc]
  congr 1
  funext answer
  cases answer <;> rfl

theorem checkLength_cases (b : Buffer) (length : Nat) :
    (b.limit < length ∧ (checkLength length).run.run b =
      pure (.error (.fieldTooLarge length b.limit), b)) ∨
    (¬ b.limit < length ∧ (checkLength length).run.run b = pure (.ok (), b)) := by
  unfold checkLength
  rw [run_bind_ok (b := b) (c := b) (a := b) rfl]
  by_cases hlong : b.limit < length
  · exact .inl ⟨hlong, by rw [if_pos hlong]; rfl⟩
  · exact .inr ⟨hlong, by rw [if_neg hlong]; rfl⟩

theorem checkCount_cases (b : Buffer) :
    (Record.maxLength ≤ b.length ∧ checkCount.run.run b = pure (.error .tooManyFields, b)) ∨
    (¬ Record.maxLength ≤ b.length ∧ checkCount.run.run b = pure (.ok (), b)) := by
  unfold checkCount
  rw [run_bind_ok (b := b) (c := b) (a := b) rfl]
  by_cases hfull : Record.maxLength ≤ b.length
  · exact .inl ⟨hfull, by rw [if_pos hfull]; rfl⟩
  · exact .inr ⟨hfull, by rw [if_neg hfull]; rfl⟩

theorem reserve_cases (b : Buffer) (additional : Nat) (growth : Growth) :
    (∃ cause, (growth.within b.room).ask (b.bytes.length + additional) = .error cause ∧
      (reserve additional growth).run.run b = pure (.error (.allocation cause), b)) ∨
    ((growth.within b.room).ask (b.bytes.length + additional) = .ok () ∧
      (reserve additional growth).run.run b =
        pure (.ok (), b.grow (b.bytes.length + additional))) := by
  unfold reserve
  rw [run_bind_ok (b := b) (c := b) (a := b) rfl]
  cases hask : (growth.within b.room).ask (b.bytes.length + additional) with
  | error cause => exact .inl ⟨cause, rfl, rfl⟩
  | ok u => exact .inr ⟨rfl, rfl⟩

/-! ## 3. Changes -/

/-- **A refused demand for room leaves the buffer as it was.** -/
theorem edit_reserve (b : Buffer) (additional : Nat) (growth : Growth) :
    (reserve additional growth).edit b = b.keeping (b.reserve additional growth) := by
  unfold edit Buffer.keeping Buffer.reserve
  rcases reserve_cases b additional growth with ⟨cause, hask, hrun⟩ | ⟨hask, hrun⟩
  · rw [hrun, hask]
    rfl
  · rw [hrun, hask]
    rfl

/-- **A field that is refused is not written in part**, whatever it is refused for. -/
theorem edit_append (b : Buffer) (f : Field) (growth : Growth) :
    (append f growth).edit b = b.keeping (b.append f growth) := by
  unfold edit Buffer.keeping append Buffer.append Buffer.accept
  rcases checkLength_cases b f.name.length with ⟨hname, hrun⟩ | ⟨hname, hrun⟩
  · rw [run_bind_error hrun, if_pos hname]
    rfl
  rw [run_bind_ok hrun, if_neg hname]
  rcases checkLength_cases b f.value.length with ⟨hvalue, hrun⟩ | ⟨hvalue, hrun⟩
  · rw [run_bind_error hrun, if_pos hvalue]
    rfl
  rw [run_bind_ok hrun, if_neg hvalue]
  rcases checkCount_cases b with ⟨hfull, hrun⟩ | ⟨hfull, hrun⟩
  · rw [run_bind_error hrun, if_pos (show Record.maxLength ≤ b.batch.count from hfull)]
    rfl
  rw [run_bind_ok hrun, if_neg (show ¬ Record.maxLength ≤ b.batch.count from hfull)]
  rw [run_bind_ok (b := b) (c := b) (a := b) rfl]
  have hsize : b.batch.size + f.encode.length =
      b.bytes.length + Field.size f.name.length f.value.length := by
    rw [Field.length_encode]
    rfl
  rw [hsize]
  rcases reserve_cases b (Field.size f.name.length f.value.length) growth with
    ⟨cause, hask, hrun⟩ | ⟨hask, hrun⟩
  · rw [run_bind_error hrun, hask]
    rfl
  -- nothing can be refused any more, and the four parts are the field
  rw [run_bind_ok hrun, hask]
  have hparts : ((((b.grow (b.bytes.length + Field.size f.name.length f.value.length)).push
      (Bytes.u32 f.name.length)).push f.name).push (Bytes.u32 f.value.length)).push f.value =
      b.push f.encode := by
    rw [Buffer.push_push, Buffer.push_push, Buffer.push_push, ← Field.length_encode]
    show Buffer.push _ f.encode = _
    exact b.push_grow _
  have hwritten : b.write (b.batch.add f) = (b.push f.encode).withCount (b.length + 1) := by
    show (b.push ([f].flatMap Field.encode)).withCount _ = _
    rw [List.flatMap_singleton]
    rfl
  show (⟨⟨_, .ok ()⟩, [.count .recordAppend 1]⟩ : Metered Edited) =
    ⟨⟨b.write (b.batch.add f), .ok ()⟩, [.count .recordAppend 1]⟩
  rw [hwritten, ← hparts]
  rfl

/-- **Several fields are appended up to the first one that is refused**, and that one leaves
    nothing. -/
theorem edit_extendFields (b : Buffer) (fields : List Field) (growth : Growth) :
    (extendFields fields growth).edit b =
      (fun left => ⟨left.1, left.2⟩) <$>
        Checked.foldUntilRefused (fun b f => b.append f growth) fields b := by
  unfold extendFields
  induction fields generalizing b with
  | nil => rfl
  | cons f fields ih =>
    show (append f growth >>= fun _ => fields.forM fun f => append f growth).edit b = _
    rw [edit_bind, edit_append, Checked.foldUntilRefused, Buffer.keeping, bind_map_left, map_bind]
    congr 1
    funext answer
    cases answer with
    | ok appended => exact ih appended
    | error error => rfl

/-- **Fields that are written all at once are those that are written one by one**: to a buffer that
    holds a row both do the same, whatever becomes of asking for memory. -/
theorem edit_extendFields_at_once {r : Row} (h : b.Holds r) (growth : Growth) {fields : List Field}
    (hfields : ∀ f ∈ fields, f.WritableUnder r.limit) :
    let left := ((extendFields fields growth).edit b).value
    let written := (b.extendFields fields growth).value
    left.buffer.bytes = written.buffer.bytes ∧ left.outcome = written.outcome := by
  intro left written
  have hleft : left.Holds (r.extend fields (growth.within b.room)) := by
    show ((extendFields fields growth).edit b).value.Holds _
    rw [edit_extendFields, Checked.value_map]
    exact Buffer.holds_appendAll (h.under growth) hfields
  have hwritten : written.Holds (r.extend fields (growth.within b.room)) :=
    Buffer.holds_extendFields (h.under growth) hfields
  exact ⟨hleft.buffer.written.eq_encode.trans hwritten.buffer.written.eq_encode.symm,
    hleft.outcome.trans hwritten.outcome.symm⟩

/-- **A record that is not taken over takes nothing away**: old bytes go only when there is room
    for the others. -/
theorem edit_copy (b : Buffer) (bytes : Bytes) (growth : Growth) :
    (copy bytes growth).edit b = b.keeping (b.copy bytes growth) := by
  unfold edit Buffer.keeping copy Buffer.copy Buffer.reserve
  rw [run_bind_ok (b := b) (c := b) (a := b) rfl]
  rcases reserve_cases b (bytes.length - b.bytes.length) growth with
    ⟨cause, hask, hrun⟩ | ⟨hask, hrun⟩
  · rw [run_bind_error hrun, hask]
    rfl
  rw [run_bind_ok hrun, hask]
  have hlast : ((b.grow (b.bytes.length + (bytes.length - b.bytes.length))).withBytes []).push
      bytes = (b.grow (b.bytes.length + (bytes.length - b.bytes.length))).withBytes bytes :=
    Buffer.withBytes_withBytes _ (Nat.zero_le _)
  show (⟨⟨_, .ok ()⟩, [.count .recordAssign 1]⟩ : Metered Edited) =
    ⟨⟨_, .ok ()⟩, [.count .recordAssign 1]⟩
  rw [← hlast]
  rfl

theorem edit_assign (b : Buffer) (v : View) (growth : Growth) :
    (assign v growth).edit b = b.keeping (b.assign v growth) := by
  show (look v.validate >>= fun _ => copy v.bytes growth).edit b = _
  rw [edit_look_bind, Buffer.keeping, Buffer.assign, ExceptT.run_bind, map_bind]
  congr 1
  funext answer
  cases answer with
  | ok u => exact edit_copy b v.bytes growth
  | error error => rfl

/-- **A value that is refused is not replaced in part**, and a longer one is refused before anything
    moves. -/
theorem edit_replaceValue (b : Buffer) (e : Entry) (value : Bytes) (growth : Growth) :
    (replaceValue e value growth).edit b = b.keeping (b.replaceValue e value growth) := by
  have hmoved : ∀ c : Buffer,
      (pure ⟨(c.withBytes (c.bytes.splice e.valueStart e.valueEnd value)).withBytes
          ((c.bytes.splice e.valueStart e.valueEnd value).overwrite e.nameEnd
            (Bytes.u32 value.length)), .ok ()⟩ : Metered Edited) =
        pure ⟨c.withBytes ((c.bytes.splice e.valueStart e.valueEnd value).overwrite e.nameEnd
          (Bytes.u32 value.length)), .ok ()⟩ := by
    intro c
    have hlength := Bytes.length_le_overwrite (c.bytes.splice e.valueStart e.valueEnd value)
      e.nameEnd (Bytes.u32 value.length)
    rw [Buffer.withBytes_withBytes c (Nat.le_trans hlength (Nat.le_max_right _ _))]
  unfold edit Buffer.keeping replaceValue Buffer.replaceValue
  rcases checkLength_cases b value.length with ⟨hlong, hrun⟩ | ⟨hlong, hrun⟩
  · rw [run_bind_error hrun, if_pos hlong]
    rfl
  rw [run_bind_ok hrun, if_neg hlong]
  split
  · rfl
  -- the value has another length, so what follows it moves
  split
  · unfold Buffer.reserve
    rcases reserve_cases b (value.length - e.value.length) growth with
      ⟨cause, hask, hrun⟩ | ⟨hask, hrun⟩
    · rw [run_bind_error hrun, hask]
      rfl
    · rw [run_bind_ok hrun, hask]
      exact hmoved _
  · exact hmoved b

end InPlace

end FieldRecords
