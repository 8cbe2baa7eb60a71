import FieldRecords.Record.Buffer
import FieldRecords.Proofs.Codec

/-!
# Edits of a record as edits of a list

A row is a record as a plain list of fields, together with the longest name or value it takes
(`Row`). A buffer holds a row if it has the row's limit and its bytes are the written form of the
row's fields (`Buffer.Holds`). **Every edit of the buffer agrees with the edit of the list**: it is
granted or refused alike, for the same reason, and what it leaves holds the list that is left.

Both may lack memory. What memory the list has is what the buffer has room for or is granted beyond
(`Buffer.HoldsUnder`), and no edit changes that: room that was granted once is granted again.

* `agree_append_under`, `holds_extendFields`: fields at the end, one or several;
* `agree_assign_under`: another record in the place of this one;
* `agree_reserve`, `holds_clear`: room, and no fields;
* `agree_fromFields_under`, `agree_ofBytes`: a buffer made from fields or from bytes.

With memory for everything they are `agree_append`, `agree_assign` and `agree_fromFields`.
-/

namespace FieldRecords

/-- A record as a plain list of fields, and the longest name or value it takes. -/
structure Row where
  limit : Nat
  fields : List Field
deriving DecidableEq

/-! ## 1. Edits of a list -/

namespace Row

/-- Other fields in the place of these, if there is memory for what they take. -/
def become (r : Row) (fields : List Field) (growth : Growth := .granted) :
    Except CodecError Row :=
  match growth.ask (Record.size fields) with
  | .ok () => .ok { r with fields }
  | .error cause => .error (.allocation cause)

/-- One field more at the end. Refused if the name or the value is too long, the name looked at
    first, if the count is exhausted, or if there is no memory. -/
def append (r : Row) (f : Field) (growth : Growth := .granted) : Except CodecError Row :=
  if r.limit < f.name.length then .error (.fieldTooLarge f.name.length r.limit)
  else if r.limit < f.value.length then .error (.fieldTooLarge f.value.length r.limit)
  else if Record.maxLength ≤ r.fields.length then .error .tooManyFields
  else r.become (r.fields ++ [f]) growth

/-- Fields at the end, up to the first one that is refused. -/
def extend (r : Row) (fields : List Field) (growth : Growth := .granted) :
    Row × Except CodecError Unit :=
  Answer.foldUntilRefused (fun r f => r.append f growth) fields r

/-- No fields. -/
def clear (r : Row) : Row := { r with fields := [] }

/-- The fields of another record, if it holds no fault. -/
def assign (r : Row) (c : Contents) (growth : Growth := .granted) : Except CodecError Row := do
  c.verdict
  r.become c.fields growth

/-- Room for further bytes, which no list shows. -/
def reserve (r : Row) (additional : Nat) (growth : Growth := .granted) : Except CodecError Row :=
  match growth.ask (Record.size r.fields + additional) with
  | .ok () => .ok r
  | .error cause => .error (.allocation cause)

/-- A row without fields, if there can be room for so many bytes. -/
def withCapacity (capacity : Nat) : Except Fault Row :=
  (Room.ask capacity 1).map fun () => ⟨Record.maxLength, []⟩

/-- A row without fields under given settings. -/
def withConfig (config : Config) : Except Fault Row :=
  (withCapacity config.initialCapacity).map fun r =>
    { r with limit := min config.maxFieldLength Record.maxLength }

/-- What a run leaves, if nothing was refused. -/
def whole (left : Row × Except CodecError Unit) : Except CodecError Row :=
  left.2.map fun () => left.1

/-- A row made of fields that are appended to none. -/
def ofFields (fields : List Field) (growth : Growth := .granted) : Except CodecError Row :=
  whole (extend ⟨Record.maxLength, []⟩ fields growth)

/-- A row made of what bytes hold, if they have a count and no fault. -/
def ofBytes (bytes : Bytes) : Except CodecError Row :=
  if bytes.length < 4 then .error (.malformed bytes.length .missingHeader)
  else assign ⟨Record.maxLength, []⟩ (View.mk bytes).contents

/-- What an edit of the fields leaves: a refused one leaves them as they were. -/
def orKeep (r : Row) : Except CodecError Row → Row × Except CodecError Unit
  | .ok s => (s, .ok ())
  | .error error => (r, .error error)

/-- What the writing of a whole record leaves: a refused one leaves no field. -/
def orClear (r : Row) : Except CodecError Row → Row × Except CodecError Unit
  | .ok s => (s, .ok ())
  | .error error => (r.clear, .error error)

section

variable {r s : Row} {growth : Growth}

/-- Other fields are taken if there is memory for them. -/
theorem become_eq_ok {fields : List Field} :
    r.become fields growth = .ok s ↔
      growth.ask (Record.size fields) = .ok () ∧ s = { r with fields } := by
  unfold become
  cases growth.ask (Record.size fields) with
  | ok u => simp [eq_comm]
  | error cause => simp

/-- With memory for everything they are taken. -/
theorem become_granted (r : Row) (fields : List Field) :
    r.become fields = .ok { r with fields } := rfl

/-- **A field is appended if the limit, the count and the memory admit it.** -/
theorem append_eq_ok_iff {f : Field} :
    r.append f growth = .ok s ↔ f.name.length ≤ r.limit ∧ f.value.length ≤ r.limit ∧
      r.fields.length < Record.maxLength ∧
      growth.ask (Record.size (r.fields ++ [f])) = .ok () ∧
      s = { r with fields := r.fields ++ [f] } := by
  unfold append
  split
  · simp; omega
  · split
    · simp; omega
    · split
      · simp; omega
      · rw [become_eq_ok]
        constructor
        · rintro ⟨hmemory, h⟩
          exact ⟨by omega, by omega, by omega, hmemory, h⟩
        · rintro ⟨-, -, -, hmemory, h⟩
          exact ⟨hmemory, h⟩

/-- With memory for everything the limit and the count decide. -/
theorem append_eq_ok {f : Field} :
    r.append f = .ok s ↔ f.name.length ≤ r.limit ∧ f.value.length ≤ r.limit ∧
      r.fields.length < Record.maxLength ∧ s = { r with fields := r.fields ++ [f] } := by
  rw [append_eq_ok_iff]
  simp

theorem append_granted {f : Field} (h : r.append f growth = .ok s) :
    s = { r with fields := r.fields ++ [f] } :=
  (append_eq_ok_iff.1 h).2.2.2.2

/-- A run without a refusal appends all fields. -/
theorem extend_granted {fields : List Field} (h : (r.extend fields growth).2 = .ok ()) :
    (r.extend fields growth).1 = { r with fields := r.fields ++ fields } := by
  unfold extend at h ⊢
  induction fields generalizing r with
  | nil => simp
  | cons f fields ih =>
    cases hf : r.append f growth with
    | error error => rw [Answer.foldUntilRefused_cons_error hf] at h; cases h
    | ok s =>
      rw [Answer.foldUntilRefused_cons_ok hf] at h ⊢
      obtain rfl := append_granted hf
      rw [ih h, List.append_assoc]
      rfl

/-- **What is left of a refused run is the fields before the first refused one**: those before it
    are appended in order without a refusal, and behind them it is refused. -/
theorem extend_refused {fields : List Field} {error : CodecError}
    (h : (r.extend fields growth).2 = .error error) :
    ∃ before f after, fields = before ++ f :: after ∧
      (r.extend fields growth).1 = { r with fields := r.fields ++ before } ∧
      r.extend before growth = ((r.extend fields growth).1, .ok ()) ∧
      (r.extend fields growth).1.append f growth = .error error := by
  unfold extend at h ⊢
  induction fields generalizing r with
  | nil => cases h
  | cons f fields ih =>
    cases hf : r.append f growth with
    | error error' =>
      rw [Answer.foldUntilRefused_cons_error hf] at h ⊢
      refine ⟨[], f, fields, rfl, by rw [List.append_nil], rfl, ?_⟩
      cases h
      exact hf
    | ok s =>
      rw [Answer.foldUntilRefused_cons_ok hf] at h ⊢
      obtain ⟨before, g, after, hfields, hleft, hbefore, hg⟩ := ih h
      obtain rfl := append_granted hf
      refine ⟨f :: before, g, after, by rw [hfields]; rfl, ?_, ?_, hg⟩
      · rw [hleft, List.append_assoc]
        rfl
      · rw [Answer.foldUntilRefused_cons_ok hf]
        exact hbefore

theorem limit_extend (r : Row) (fields : List Field) :
    (r.extend fields growth).1.limit = r.limit := by
  cases h : (r.extend fields growth).2 with
  | ok u => rw [extend_granted h]
  | error error =>
    obtain ⟨before, f, after, -, hleft, -⟩ := extend_refused h
    rw [hleft]

end

/-- **Fields that are short enough and not too many are all appended.** -/
theorem extend_of_fit {r : Row} {fields : List Field}
    (hshort : ∀ f ∈ fields, f.name.length ≤ r.limit ∧ f.value.length ≤ r.limit)
    (hcount : r.fields.length + fields.length ≤ Record.maxLength) :
    r.extend fields = ({ r with fields := r.fields ++ fields }, .ok ()) := by
  unfold extend
  induction fields generalizing r with
  | nil => simp
  | cons f fields ih =>
    obtain ⟨hname, hvalue⟩ := hshort f List.mem_cons_self
    rw [List.length_cons] at hcount
    have h : r.append f = .ok { r with fields := r.fields ++ [f] } :=
      append_eq_ok.2 ⟨hname, hvalue, by omega, rfl⟩
    rw [Answer.foldUntilRefused_cons_ok h, ih]
    · rw [List.append_assoc]
      rfl
    · exact fun g hg => hshort g (List.mem_cons_of_mem _ hg)
    · simp only [List.length_append, List.length_singleton]
      omega

/-- A run left something as a whole if nothing was refused. -/
theorem whole_eq_ok {left : Row × Except CodecError Unit} {s : Row} :
    whole left = .ok s ↔ left = (s, .ok ()) := by
  obtain ⟨r, outcome⟩ := left
  cases outcome <;> simp [whole, Except.map]

/-- And if something was refused, it left nothing. -/
theorem whole_eq_error {left : Row × Except CodecError Unit} {error : CodecError} :
    whole left = .error error ↔ left.2 = .error error := by
  obtain ⟨r, outcome⟩ := left
  cases outcome <;> simp [whole, Except.map]

/-- A run that is cleared when it is refused is refused for the same reason. -/
theorem outcome_orClear_whole (r : Row) (left : Row × Except CodecError Unit) :
    (r.orClear (whole left)).2 = left.2 := by
  obtain ⟨s, outcome⟩ := left
  cases outcome <;> rfl

theorem assign_granted {r s : Row} {c : Contents} {growth : Growth}
    (h : r.assign c growth = .ok s) : s = { r with fields := c.fields } := by
  obtain ⟨-, -, h⟩ := Answer.bind_eq_ok.1 h
  exact (become_eq_ok.1 h).2

theorem reserve_granted {r s : Row} {additional : Nat} {growth : Growth}
    (h : r.reserve additional growth = .ok s) : s = r := by
  unfold reserve at h
  split at h
  · cases h
    rfl
  · cases h

/-- A row that is made has no fields, the given ones, or those that the bytes hold. -/
theorem withCapacity_granted {r : Row} {capacity : Nat} (h : withCapacity capacity = .ok r) :
    r = ⟨Record.maxLength, []⟩ := by
  unfold withCapacity at h
  cases hroom : Room.ask capacity 1 with
  | ok u => rw [hroom] at h; cases h; rfl
  | error fault => rw [hroom] at h; cases h

theorem withConfig_granted {r : Row} {config : Config} (h : withConfig config = .ok r) :
    r = ⟨min config.maxFieldLength Record.maxLength, []⟩ := by
  unfold withConfig at h
  cases hmade : withCapacity config.initialCapacity with
  | ok made =>
    rw [hmade, withCapacity_granted hmade] at h
    cases h
    rfl
  | error fault => rw [hmade] at h; cases h

theorem ofFields_granted {fields : List Field} {r : Row} {growth : Growth}
    (h : ofFields fields growth = .ok r) :
    r = ⟨Record.maxLength, fields⟩ := by
  have hleft := whole_eq_ok.1 h
  have hextend := extend_granted (congrArg Prod.snd hleft)
  rw [hleft] at hextend
  exact hextend

theorem ofBytes_granted {bytes : Bytes} {r : Row} (h : ofBytes bytes = .ok r) :
    r = ⟨Record.maxLength, (View.mk bytes).contents.fields⟩ := by
  unfold ofBytes at h
  split at h
  · cases h
  · exact assign_granted h

end Row

/-! ## 2. Buffers that hold a row -/

namespace Buffer

/-- **The buffer holds the row**: it has the row's limit, and its bytes are the written form of the
    row's fields. -/
structure Holds (b : Buffer) (r : Row) : Prop where
  limit_eq : b.limit = r.limit
  written : Record.Written b.bytes r.fields

end Buffer

/-- What is left of an edit holds what is left of the list, and the outcome is the same. -/
structure Edited.Holds (edited : Edited) (left : Row × Except CodecError Unit) : Prop where
  buffer : edited.buffer.Holds left.1
  outcome : edited.outcome = left.2

/-- What the writing of a whole record has reached before it is cleared: the limit, the outcome,
    and, if nothing was refused, the list. -/
structure Edited.Reaches (edited : Edited) (r : Row) (answer : Except CodecError Row) : Prop where
  limit_eq : edited.buffer.limit = r.limit
  outcome : edited.outcome = answer.map fun _ => ()
  holds : ∀ s, answer = .ok s → edited.buffer.Holds s

/-- A run that holds what is left of the list has reached it. -/
theorem Edited.Holds.reaches {edited : Edited} {left : Row × Except CodecError Unit} {r : Row}
    (h : edited.Holds left) (hlimit : left.1.limit = r.limit) :
    edited.Reaches r (Row.whole left) := by
  obtain ⟨hbuffer, houtcome⟩ := h
  refine ⟨hbuffer.limit_eq.trans hlimit, ?_, fun s hs => ?_⟩
  · rw [houtcome]
    obtain ⟨s, outcome⟩ := left
    cases outcome <;> rfl
  · rw [Row.whole_eq_ok.1 hs] at hbuffer
    exact hbuffer

/-- Nothing is reached if the record is refused before. -/
theorem Edited.reaches_error {b : Buffer} {r : Row} (hlimit : b.limit = r.limit)
    (error : CodecError) : Edited.Reaches ⟨b, .error error⟩ r (.error error) := by
  refine ⟨hlimit, rfl, fun _ hs => ?_⟩
  cases hs

/-- A record that was refused is cleared. -/
def Edited.clearIfRefused (edited : Edited) : Edited :=
  match edited.outcome with
  | .ok () => edited
  | .error error => ⟨edited.buffer.clear.value, .error error⟩

namespace Buffer

variable {b : Buffer} {r : Row}

theorem length_of_holds (h : b.Holds r) : b.length = r.fields.length :=
  View.length_of_written h.written

theorem contents_of_holds (h : b.Holds r) : b.view.contents = ⟨r.fields, none⟩ :=
  View.contents_of_written h.written

/-- Room does not matter. -/
theorem holds_grow (h : b.Holds r) (capacity : Nat) : (b.grow capacity).Holds r :=
  ⟨h.limit_eq, h.written⟩

theorem holds_clone (h : b.Holds r) : b.clone.Holds r := ⟨h.limit_eq, h.written⟩

/-- A cleared buffer is the empty record, whatever its bytes were. -/
theorem bytes_clear (b : Buffer) : b.clear.value.bytes = Record.emptyBytes := by
  change Bytes.overwrite (b.bytes.take 4) 0 (Bytes.u32 0) = Record.emptyBytes
  have hdrop : (b.bytes.take 4).drop (0 + (Bytes.u32 0).length) = [] := by
    apply List.drop_eq_nil_of_le
    rw [List.length_take, Bytes.length_u32]
    omega
  rw [Bytes.overwrite, hdrop]
  rfl

/-- Clearing a record keeps the room. -/
theorem room_clear (h : 4 ≤ b.bytes.length) : b.clear.value.room = b.room := by
  have hroom := b.length_le_room
  have htaken : (b.bytes.take Record.headerSize).length = 4 := List.length_take_of_le h
  have hcleared := congrArg List.length b.bytes_clear
  change ((b.withBytes (b.bytes.take Record.headerSize)).bytes.overwrite 0 (Bytes.u32 0)).length =
    4 at hcleared
  show ((b.withBytes (b.bytes.take Record.headerSize)).withBytes _).room = b.room
  rw [room_withBytes, room_withBytes, htaken, hcleared]
  omega

theorem limit_clear (b : Buffer) : b.clear.value.limit = b.limit := rfl

theorem holds_clear (hlimit : b.limit = r.limit) : b.clear.value.Holds r.clear :=
  ⟨hlimit, by rw [bytes_clear]; exact Record.written_nil⟩

end Buffer

/-- **What is cleared when it is refused holds the list, or no field.** -/
theorem Edited.Reaches.holds_clearIfRefused {edited : Edited} {r : Row}
    {answer : Except CodecError Row} (h : edited.Reaches r answer) :
    edited.clearIfRefused.Holds (r.orClear answer) := by
  obtain ⟨hlimit, houtcome, hholds⟩ := h
  unfold clearIfRefused Row.orClear
  cases answer with
  | ok s =>
    rw [houtcome]
    exact ⟨hholds s rfl, houtcome⟩
  | error error =>
    rw [houtcome]
    exact ⟨Buffer.holds_clear hlimit, rfl⟩

namespace Buffer

variable {b : Buffer} {r : Row} {growth memory : Growth}

/-! ## 3. Buffers that ask for memory -/

/-- **The buffer holds the row, and there is memory for both alike**: what the buffer has room for,
    or is granted beyond, is what `memory` grants. -/
structure HoldsUnder (growth memory : Growth) (b : Buffer) (r : Row) : Prop where
  holds : b.Holds r
  memory_eq : growth.within b.room = memory

theorem Holds.under (h : b.Holds r) (growth : Growth) :
    b.HoldsUnder growth (growth.within b.room) r :=
  ⟨h, rfl⟩

/-- With memory for everything room does not matter. -/
theorem Holds.underGranted (h : b.Holds r) : b.HoldsUnder .granted .granted r :=
  ⟨h, Growth.within_granted _⟩

theorem agree_of_under {x : Except CodecError Buffer} {y : Except CodecError Row}
    (h : Agree (HoldsUnder growth memory) x y) : Agree Holds x y :=
  h.imp fun _ _ hunder => hunder.holds

/-- **Bytes that memory was granted for leave the memory as it is.** -/
theorem HoldsUnder.grown {b' : Buffer} {s : Row} (h : growth.within b.room = memory)
    (hholds : b'.Holds s) {size : Nat} (hsize : memory.ask size = .ok ())
    (hroom : b'.room = max b.room size) : b'.HoldsUnder growth memory s := by
  refine ⟨hholds, ?_⟩
  rw [hroom, Growth.within_max growth (h.symm ▸ hsize), h]

/-- What a buffer has room for is granted. -/
theorem ask_of_le_room (h : growth.within b.room = memory) {size : Nat}
    (hsize : size ≤ b.bytes.length) : memory.ask size = .ok () :=
  h ▸ growth.ask_within_of_le (Nat.le_trans hsize b.length_le_room)

theorem answer_reserve (b : Buffer) (additional : Nat) (growth : Growth) :
    (b.reserve additional growth).answer =
      match (growth.within b.room).ask (b.bytes.length + additional) with
      | .ok () => .ok (b.grow (b.bytes.length + additional))
      | .error cause => .error (.allocation cause) := by
  unfold reserve
  cases (growth.within b.room).ask (b.bytes.length + additional) <;> rfl

/-- **Asking for room changes no field.** -/
theorem agree_reserve (h : b.HoldsUnder growth memory r) (additional : Nat) :
    Agree (HoldsUnder growth memory) (b.reserve additional growth).answer
      (r.reserve additional memory) := by
  rw [answer_reserve, h.memory_eq, h.holds.written.length_eq, Row.reserve]
  cases hask : memory.ask (Record.size r.fields + additional) with
  | error cause => exact .error _
  | ok u => exact .ok (.grown h.memory_eq (holds_grow h.holds _) hask (b.room_grow _))

end Buffer

/-! ## 4. Fields at the end -/

/-- **A field that the limit admits can be written.** Both a field that can be written anyway and a
    limit that can be written see to it. -/
def Field.WritableUnder (limit : Nat) (f : Field) : Prop :=
  f.name.length ≤ limit → f.value.length ≤ limit → f.Fits

theorem Field.Fits.writableUnder {f : Field} (h : f.Fits) (limit : Nat) : f.WritableUnder limit :=
  fun _ _ => h

theorem Field.writableUnder_of_le {limit : Nat} (h : limit ≤ Record.maxLength) (f : Field) :
    f.WritableUnder limit := by
  intro hname hvalue
  simp only [Record.maxLength] at h
  exact ⟨by omega, by omega⟩

/-- What has been appended can be written if it can be written under the limit. -/
theorem Row.fits_of_append {r s : Row} {f : Field} {growth : Growth}
    (hfits : Record.Fits r.fields) (hf : f.WritableUnder r.limit)
    (h : r.append f growth = .ok s) : Record.Fits s.fields := by
  obtain ⟨hname, hvalue, hcount, -, rfl⟩ := append_eq_ok_iff.1 h
  simp only [Record.maxLength] at hcount
  refine ⟨by simp only [List.length_append, List.length_singleton]; omega, fun g hg => ?_⟩
  rcases List.mem_append.1 hg with hg | hg
  · exact hfits.2 g hg
  · rw [List.mem_singleton.1 hg]
    exact hf hname hvalue

theorem Record.size_concat (fields : List Field) (f : Field) :
    size (fields ++ [f]) = size fields + f.encode.length := by
  rw [← length_flatMap_encode, ← length_flatMap_encode, List.flatMap_append, List.length_append,
    List.flatMap_singleton, Nat.add_assoc]

namespace Buffer

variable {b : Buffer} {r s : Row} {growth memory : Growth} {batch : Batch}

/-- **Fields that were accepted one by one** belong to the list they make behind those that are
    there: so many fields, and so many bytes, which there is memory for. -/
structure Accepted (memory : Growth) (r : Row) (batch : Batch) (s : Row) : Prop where
  row_eq : s = { r with fields := r.fields ++ batch.fields.reverse }
  count_eq : batch.count = s.fields.length
  size_eq : batch.size = Record.size s.fields
  granted : memory.ask batch.size = .ok ()
  fits : Record.Fits s.fields

theorem accepted_batch (h : b.HoldsUnder growth memory r) : Accepted memory r b.batch r where
  row_eq := by
    show r = { r with fields := r.fields ++ [] }
    rw [List.append_nil]
  count_eq := length_of_holds h.holds
  size_eq := h.holds.written.length_eq
  granted := ask_of_le_room h.memory_eq (Nat.le_refl _)
  fits := h.holds.written.fits

/-- **A buffer accepts what the list appends.** -/
theorem agree_accept (h : b.HoldsUnder growth memory r) (ha : Accepted memory r batch s)
    {f : Field} (hf : f.WritableUnder r.limit) :
    Agree (Accepted memory r) (b.accept batch f growth).answer (s.append f memory) := by
  have hlimits : s.limit = r.limit := by rw [ha.row_eq]
  have hsize : batch.size + f.encode.length = Record.size (s.fields ++ [f]) := by
    rw [ha.size_eq, Record.size_concat]
  have hfits : ∀ t, s.append f memory = .ok t → Record.Fits t.fields := fun t ht =>
    Row.fits_of_append ha.fits (hlimits ▸ hf) ht
  unfold accept Row.append Row.become at *
  rw [h.holds.limit_eq, ha.count_eq, h.memory_eq, hsize]
  rw [hlimits] at hfits ⊢
  split
  · exact .error _
  · split
    · exact .error _
    · split
      · exact .error _
      · rename_i hname hvalue hcount
        rw [if_neg hname, if_neg hvalue, if_neg hcount] at hfits
        cases hask : memory.ask (Record.size (s.fields ++ [f])) with
        | error cause => exact .error _
        | ok u =>
          rw [hask] at hfits
          refine .ok ⟨?_, ?_, hsize, (congrArg memory.ask hsize).trans hask, hfits _ rfl⟩
          · show (⟨r.limit, s.fields ++ [f]⟩ : Row) =
              ⟨r.limit, r.fields ++ (f :: batch.fields).reverse⟩
            rw [ha.row_eq, List.reverse_cons, List.append_assoc]
          · show batch.count + 1 = (s.fields ++ [f]).length
            rw [ha.count_eq, List.length_append, List.length_singleton]

/-- With memory for everything, what the limit admits is accepted, and reported as appended. -/
theorem accept_granted (b : Buffer) (batch : Batch) {f : Field} (hname : f.name.length ≤ b.limit)
    (hvalue : f.value.length ≤ b.limit) (hcount : batch.count < Record.maxLength) :
    (b.accept batch f).run = ⟨.ok (batch.add f), [.count .recordAppend 1]⟩ := by
  rw [accept, if_neg (Nat.not_lt.2 hname), if_neg (Nat.not_lt.2 hvalue),
    if_neg (Nat.not_le.2 hcount), Growth.within_granted]
  rfl

/-- **Fields that were accepted are written at the end**, and the count with them. -/
theorem holds_write (h : b.HoldsUnder growth memory r) (ha : Accepted memory r batch s) :
    (b.write batch).HoldsUnder growth memory s := by
  have hbytes : b.bytes ++ batch.fields.reverse.flatMap Field.encode =
      Bytes.u32 r.fields.length ++ s.fields.flatMap Field.encode := by
    rw [ha.row_eq, h.holds.written.eq_encode, Record.encode, List.append_assoc,
      List.flatMap_append]
  have hencode : Bytes.overwrite (Bytes.u32 r.fields.length ++ s.fields.flatMap Field.encode) 0
      (Bytes.u32 s.fields.length) = Record.encode s.fields :=
    Bytes.overwrite_append rfl [] _
  have hwritten : (b.write batch).bytes = Record.encode s.fields := by
    show Bytes.overwrite (b.bytes ++ batch.fields.reverse.flatMap Field.encode) 0
      (Bytes.u32 batch.count) = _
    rw [hbytes, ha.count_eq, hencode]
  have hlimit : b.limit = s.limit := by rw [ha.row_eq]; exact h.holds.limit_eq
  refine .grown h.memory_eq ⟨hlimit, ha.fits, hwritten⟩ ha.granted ?_
  have hfirst : (b.bytes ++ batch.fields.reverse.flatMap Field.encode).length = batch.size := by
    rw [hbytes, List.length_append, Bytes.length_u32, Record.length_flatMap_encode, ha.size_eq]
  have hlast : (b.write batch).bytes.length = batch.size := by
    rw [hwritten, Record.length_encode, ha.size_eq]
  rw [write, withCount, push, room_withBytes, room_withBytes, hfirst]
  exact (congrArg _ hlast).trans (by rw [Nat.max_assoc, Nat.max_self])

/-- With memory for everything, fields that can be written are accepted one by one. -/
theorem Accepted.add_all (ha : Accepted .granted r batch s) {fields : List Field}
    (hfits : Record.Fits (s.fields ++ fields)) :
    Accepted .granted r (fields.foldl Batch.add batch)
      { s with fields := s.fields ++ fields } := by
  induction fields generalizing batch s with
  | nil => simpa using ha
  | cons f fields ih =>
    rw [List.append_cons] at hfits
    have hadded : Accepted .granted r (batch.add f) { s with fields := s.fields ++ [f] } := by
      refine ⟨?_, ?_, ?_, rfl, ?_⟩
      · rw [ha.row_eq]
        simp [Batch.add]
      · simp [Batch.add, ha.count_eq]
      · simp [Batch.add, ha.size_eq, Record.size_concat]
      · refine ⟨?_, fun g hg => hfits.2 g (List.mem_append_left _ hg)⟩
        have hcount := hfits.1
        rw [List.length_append] at hcount
        exact Nat.lt_of_le_of_lt (Nat.le_add_right _ _) hcount
    have hrest := ih hadded hfits
    rwa [List.append_assoc] at hrest

/-- And written, they are the end of the list. -/
theorem holds_write_all (h : b.Holds r) {fields : List Field}
    (hfits : Record.Fits (r.fields ++ fields)) :
    (b.write (fields.foldl Batch.add b.batch)).HoldsUnder .granted .granted
      { r with fields := r.fields ++ fields } :=
  holds_write h.underGranted ((accepted_batch h.underGranted).add_all hfits)

/-- **Appending to the buffer is appending to the list.** -/
theorem agree_append_under (h : b.HoldsUnder growth memory r) {f : Field}
    (hf : f.WritableUnder r.limit) :
    Agree (HoldsUnder growth memory) (b.append f growth).answer (r.append f memory) := by
  have haccept := agree_accept h (accepted_batch h) hf
  unfold append
  rw [Checked.answer_bind]
  generalize (b.accept b.batch f growth).answer = x at haccept ⊢
  generalize r.append f memory = y at haccept ⊢
  cases haccept with
  | ok haccepted => exact .ok (holds_write h haccepted)
  | error error => exact .error error

theorem agree_append (h : b.Holds r) {f : Field} (hf : f.WritableUnder r.limit) :
    Agree Holds (b.append f).answer (r.append f) :=
  agree_of_under (agree_append_under h.underGranted hf)

/-- **Appending several fields is appending them to the list one by one**: the fields before the
    first refused one are kept. -/
theorem holds_extendFields (h : b.HoldsUnder growth memory r) {fields : List Field}
    (hfields : ∀ f ∈ fields, f.WritableUnder r.limit) :
    (b.extendFields fields growth).value.Holds (r.extend fields memory) := by
  have hfold := Agree.fold (R := Accepted memory r)
    (f := fun batch f => (b.accept batch f growth).answer) (g := fun r f => Row.append r f memory)
    fields (fun _ _ hs f hf => agree_accept h hs (hfields f hf))
    (accepted_batch h)
  unfold extendFields
  rw [Metered.value_bind, Checked.value_foldUntilRefused]
  exact ⟨(holds_write h hfold.1).holds, hfold.2⟩

/-- The same if each is written before the next one is looked at. -/
theorem holds_appendAll (h : b.HoldsUnder growth memory r) {fields : List Field}
    (hfields : ∀ f ∈ fields, f.WritableUnder r.limit) :
    let left := (Checked.foldUntilRefused (fun b f => b.append f growth) fields b).value
    Edited.Holds ⟨left.1, left.2⟩ (r.extend fields memory) := by
  have hstep : ∀ (c : Buffer) (s : Row), c.HoldsUnder growth memory s ∧ s.limit = r.limit →
      ∀ f ∈ fields, Agree (fun c s => c.HoldsUnder growth memory s ∧ s.limit = r.limit)
        (c.append f growth).answer (s.append f memory) := by
    rintro c s ⟨hs, hlimit⟩ f hf
    have happend := agree_append_under hs (hlimit.symm ▸ hfields f hf)
    generalize (c.append f growth).answer = x at happend ⊢
    generalize hrow : s.append f memory = y at happend ⊢
    cases happend with
    | ok happended =>
      refine .ok ⟨happended, ?_⟩
      rw [Row.append_granted hrow, hlimit]
    | error error => exact .error error
  have hfold := Agree.fold fields hstep ⟨h, rfl⟩
  intro left
  have hleft : left = _ := Checked.value_foldUntilRefused _ _ _
  rw [hleft]
  exact ⟨hfold.1.1.holds, hfold.2⟩

/-! ## 5. Other records in the place of this one -/

/-- A buffer given the bytes of a record without a fault holds what they hold. -/
theorem holds_withBytes (hlimit : b.limit = r.limit) {v : View} (hheader : 4 ≤ v.bytes.length)
    (hfault : v.contents.fault = none) :
    (b.withBytes v.bytes).Holds { r with fields := v.contents.fields } :=
  ⟨hlimit, Record.written_of_fault_none hheader hfault⟩

/-- **Bytes of a record without a fault are copied if there is memory for its fields.** -/
theorem agree_copy (hlimit : b.limit = r.limit) (hmemory : growth.within b.room = memory)
    {v : View} (hheader : 4 ≤ v.bytes.length) (hfault : v.contents.fault = none) :
    Agree (HoldsUnder growth memory) (b.copy v.bytes growth).answer
      (r.become v.contents.fields memory) := by
  have hsize : v.bytes.length = Record.size v.contents.fields :=
    (Record.written_of_fault_none hheader hfault).length_eq
  have hroom := b.length_le_room
  have hask : memory.ask (b.bytes.length + (v.bytes.length - b.bytes.length)) =
      memory.ask v.bytes.length := by
    by_cases hshort : v.bytes.length ≤ b.bytes.length
    · rw [ask_of_le_room hmemory hshort, ask_of_le_room hmemory (by omega)]
    · rw [Nat.add_sub_cancel' (by omega)]
  rw [copy, Checked.answer_bind, answer_reserve, hmemory, hask, Row.become, ← hsize]
  cases hgranted : memory.ask v.bytes.length with
  | error cause => exact .error _
  | ok u =>
    have hholds := holds_withBytes (b := b.grow (b.bytes.length +
      (v.bytes.length - b.bytes.length))) hlimit hheader hfault
    refine .ok (.grown hmemory hholds hgranted ?_)
    rw [room_withBytes, room_grow]
    omega

/-- **Taking over a record is taking over its fields**, and a record with a fault is not taken
    over. -/
theorem agree_assign_under (hlimit : b.limit = r.limit) (hmemory : growth.within b.room = memory)
    {v : View} (hheader : 4 ≤ v.bytes.length) :
    Agree (HoldsUnder growth memory) (b.assign v growth).answer
      (r.assign v.contents memory) := by
  unfold assign Row.assign
  rw [Checked.answer_bind, View.answer_validate]
  cases hv : v.contents.verdict with
  | error error => exact .error error
  | ok u => exact agree_copy hlimit hmemory hheader (Contents.verdict_eq_ok.1 hv)

theorem agree_assign (hlimit : b.limit = r.limit) {v : View} (hheader : 4 ≤ v.bytes.length) :
    Agree Holds (b.assign v).answer (r.assign v.contents) :=
  agree_of_under (agree_assign_under hlimit (Growth.within_granted _) hheader)

/-! ## 6. Making a buffer -/

theorem holds_ofCapacity (capacity : Nat) :
    (ofCapacity capacity).Holds ⟨Record.maxLength, []⟩ :=
  ⟨rfl, Record.written_nil⟩

theorem agree_withCapacity (capacity : Nat) :
    Agree Holds (withCapacity capacity) (Row.withCapacity capacity) := by
  unfold withCapacity Row.withCapacity
  cases Room.ask capacity 1 with
  | ok u => exact .ok (holds_ofCapacity capacity)
  | error fault => exact .error fault

/-- **A buffer made under settings has the limit of the settings**, and no field. -/
theorem agree_withConfig (config : Config) :
    Agree Holds (withConfig config) (Row.withConfig config) := by
  have hmade := agree_withCapacity config.initialCapacity
  unfold withConfig Row.withConfig
  generalize withCapacity config.initialCapacity = x at hmade ⊢
  generalize Row.withCapacity config.initialCapacity = y at hmade ⊢
  cases hmade with
  | ok hmade => exact .ok ⟨rfl, hmade.written⟩
  | error fault => exact .error fault

/-- Settings with room give a buffer with their limit. -/
theorem withConfig_of_room {config : Config} (hroom : config.initialCapacity ≤ Room.maxBytes) :
    ∃ b, withConfig config = .ok b ∧ b.limit = min config.maxFieldLength Record.maxLength := by
  have hask : Room.ask config.initialCapacity 1 = .ok () := by
    rw [Room.ask_eq_ok_iff, Nat.mul_one]
    exact hroom
  rw [withConfig, withCapacity, hask]
  exact ⟨_, rfl, rfl⟩

/-- **A buffer made of fields holds them**, or is refused like the list. -/
theorem agree_fromFields_under (fields : List Field) (growth : Growth) :
    Agree Holds (fromFields fields growth).answer
      (Row.ofFields fields (growth.within new.room)) := by
  have hnew : new.HoldsUnder growth (growth.within new.room) ⟨Record.maxLength, []⟩ :=
    (holds_ofCapacity _).under growth
  obtain ⟨hholds, houtcome⟩ := holds_extendFields hnew
    fun f (_ : f ∈ fields) => Field.writableUnder_of_le (Nat.le_refl _) f
  unfold fromFields Row.ofFields Row.whole
  simp only [Checked.answer_liftM_bind]
  rw [houtcome]
  cases (Row.extend ⟨Record.maxLength, []⟩ fields (growth.within new.room)).2 with
  | ok u => exact .ok hholds
  | error error => exact .error error

theorem agree_fromFields (fields : List Field) :
    Agree Holds (fromFields fields).answer (Row.ofFields fields) := by
  have hagree := agree_fromFields_under fields .granted
  rwa [Growth.within_granted] at hagree

end Buffer

/-- **A buffer that adopts bytes holds what they hold**, or is refused for their fault. -/
theorem Buffer.agree_ofBytes (bytes : Bytes) :
    Agree Buffer.Holds (Buffer.ofBytes bytes).answer (Row.ofBytes bytes) := by
  unfold Buffer.ofBytes Row.ofBytes
  rw [Checked.answer_bind, View.answer_ofBytes]
  split
  · exact .error _
  · rename_i hheader
    show Agree _ ((View.mk bytes).validate >>= _).answer _
    rw [Checked.answer_bind, View.answer_validate, Row.assign]
    cases hv : (View.mk bytes).contents.verdict with
    | error error => exact .error error
    | ok u =>
      have hfault := Contents.verdict_eq_ok.1 hv
      exact .ok ⟨rfl, Record.written_of_fault_none (Nat.le_of_not_lt hheader) hfault⟩

end FieldRecords
