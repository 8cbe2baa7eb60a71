import FieldRecords.Record.Merge
import FieldRecords.Proofs.Edits

/-!
# Merging records is laying lists over each other

A field laid over a row (`Row.lay`) gives its value to the first field of its name, or goes to the
end. The record does the same with bytes: the field is looked up, and its value is written over,
or cut out and replaced together with its length, or a field is appended. **Each of these ways
leaves the written form of the list** (`Buffer.agree_put_under`), so a merge is granted or refused
like the list, for lack of memory too (`holds_mergeInto_under`), and what it writes is
`Record.overlay` (`Row.layAll_granted`).
-/

namespace FieldRecords

/-! ## 1. The first field of a name -/

namespace Record

/-- **A name is looked up where its first field stands**, or no field has it. -/
theorem find?_entries (start : Nat) (fields : List Field) (name : Bytes) :
    ((∀ g ∈ fields, g.name ≠ name) ∧
      (entries start fields).find? (fun e => e.name == name) = none) ∨
    ∃ before f after, fields = before ++ f :: after ∧ f.name = name ∧
      (∀ g ∈ before, g.name ≠ name) ∧
      (entries start fields).find? (fun e => e.name == name) =
        some ⟨start + (before.flatMap Field.encode).length, f.name, f.value⟩ := by
  induction fields generalizing start with
  | nil => exact .inl ⟨fun _ hg => absurd hg List.not_mem_nil, rfl⟩
  | cons f fields ih =>
    by_cases hf : f.name = name
    · refine .inr ⟨[], f, fields, rfl, hf, fun _ hg => absurd hg List.not_mem_nil, ?_⟩
      simp [entries, hf]
    · have hstep : (entries start (f :: fields)).find? (fun e => e.name == name) =
          (entries (start + f.encode.length) fields).find? fun e => e.name == name := by
        simp [entries, hf]
      rw [hstep]
      obtain ⟨habsent, hnone⟩ | ⟨before, g, after, hfields, hg, hbefore, hsome⟩ :=
        ih (start + f.encode.length)
      · refine .inl ⟨fun g hg => ?_, hnone⟩
        rcases List.mem_cons.1 hg with rfl | hg
        · exact hf
        · exact habsent g hg
      · refine .inr ⟨f :: before, g, after, by rw [hfields]; rfl, hg, fun h hh => ?_, ?_⟩
        · rcases List.mem_cons.1 hh with rfl | hh
          · exact hf
          · exact hbefore h hh
        · rw [hsome, List.flatMap_cons, List.length_append, Nat.add_assoc]

theorem any_name_eq_false {fields : List Field} {name : Bytes} :
    (fields.any fun g => g.name == name) = false ↔ ∀ g ∈ fields, g.name ≠ name := by
  rw [List.any_eq_false]
  exact forall₂_congr fun g _ => by rw [beq_iff_eq]

/-- A name that no field has goes to the end. -/
theorem put_of_absent {row : List Field} {f : Field} (h : ∀ g ∈ row, g.name ≠ f.name) :
    put row f = row ++ [f] := by
  induction row with
  | nil => rfl
  | cons g row ih =>
    rw [put, if_neg (h g List.mem_cons_self), ih fun g' hg' => h g' (List.mem_cons_of_mem _ hg')]
    rfl

/-- The first field of the name takes the value, where it stands. -/
theorem put_of_first {before after : List Field} {f g : Field}
    (hbefore : ∀ h ∈ before, h.name ≠ f.name) (hg : g.name = f.name) :
    put (before ++ g :: after) f = before ++ ⟨g.name, f.value⟩ :: after := by
  induction before with
  | nil => rw [List.nil_append, put, if_pos hg, List.nil_append]
  | cons h before ih =>
    rw [List.cons_append, put, if_neg (hbefore h List.mem_cons_self),
      ih fun h' hh' => hbefore h' (List.mem_cons_of_mem _ hh')]
    rfl

/-- A value that is taken adds no field. -/
theorem length_put_of_any {row : List Field} {f : Field}
    (h : (row.any fun g => g.name == f.name) = true) : (put row f).length = row.length := by
  induction row with
  | nil => cases h
  | cons g row ih =>
    unfold put
    split
    · rfl
    · rename_i hg
      rw [List.any_cons, beq_eq_false_iff_ne.2 hg, Bool.false_or] at h
      exact congrArg (· + 1) (ih h)

/-- A row does not get shorter when a field is laid over it. -/
theorem length_le_put (row : List Field) (f : Field) : row.length ≤ (put row f).length := by
  induction row with
  | nil => exact Nat.zero_le _
  | cons g row ih =>
    unfold put
    split
    · exact Nat.le_refl _
    · exact Nat.succ_le_succ ih

theorem length_le_overlay (row update : List Field) : row.length ≤ (overlay row update).length := by
  induction update generalizing row with
  | nil => exact Nat.le_refl _
  | cons f update ih => exact Nat.le_trans (length_le_put row f) (ih (put row f))

end Record

/-! ## 2. Laying fields over a row -/

namespace Row

/-- One field laid over the row. Refused if the value is too long for the field that is there, if
    there is none and the field cannot be appended, or if there is no memory. -/
def lay (r : Row) (f : Field) (growth : Growth := .granted) : Except CodecError Row :=
  if r.fields.any fun g => g.name == f.name then
    if r.limit < f.value.length then .error (.fieldTooLarge f.value.length r.limit)
    else r.become (Record.put r.fields f) growth
  else r.append f growth

/-- All fields of an update laid over the row, up to the first one that is refused. -/
def layAll (r : Row) (update : List Field) (growth : Growth := .granted) :
    Row × Except CodecError Unit :=
  Answer.foldUntilRefused (fun r f => r.lay f growth) update r

/-- One record laid over another, with the limit of the row they are written to. Both must be
    without a fault, and the fault of the first one counts first. -/
def overlay (r : Row) (base update : Contents) (growth : Growth := .granted) :
    Except CodecError Row := do
  base.verdict
  update.verdict
  let r ← r.become base.fields growth
  whole (r.layAll update.fields growth)

section

variable {r s : Row} {growth : Growth}

theorem lay_of_absent {f : Field} (h : ∀ g ∈ r.fields, g.name ≠ f.name) :
    r.lay f growth = r.append f growth := by
  rw [lay, Record.any_name_eq_false.2 h]
  rfl

theorem lay_of_first {before after : List Field} {f g : Field}
    (hfields : r.fields = before ++ g :: after) (hbefore : ∀ h ∈ before, h.name ≠ f.name)
    (hg : g.name = f.name) :
    r.lay f growth =
      if r.limit < f.value.length then .error (.fieldTooLarge f.value.length r.limit)
      else r.become (before ++ ⟨g.name, f.value⟩ :: after) growth := by
  have hany : (r.fields.any fun g => g.name == f.name) = true := by
    rw [List.any_eq_true, hfields]
    exact ⟨g, List.mem_append_right _ List.mem_cons_self, by simpa using hg⟩
  rw [lay, hany, hfields, Record.put_of_first hbefore hg]
  rfl

/-- **A field that is granted is put.** -/
theorem lay_granted {f : Field} (h : r.lay f growth = .ok s) :
    s = { r with fields := Record.put r.fields f } := by
  unfold lay at h
  split at h
  · split at h
    · cases h
    · exact (become_eq_ok.1 h).2
  · rename_i hany
    obtain rfl := append_granted h
    rw [Record.put_of_absent (Record.any_name_eq_false.1 (Bool.eq_false_iff.2 hany))]

theorem limit_layAll (r : Row) (update : List Field) (growth : Growth) :
    (r.layAll update growth).1.limit = r.limit := by
  unfold layAll
  induction update generalizing r with
  | nil => rfl
  | cons f update ih =>
    cases hf : r.lay f growth with
    | ok s => rw [Answer.foldUntilRefused_cons_ok hf, ih, lay_granted hf]
    | error error => rw [Answer.foldUntilRefused_cons_error hf]

/-- **An update that is granted as a whole is the overlay of the lists.** -/
theorem layAll_granted {update : List Field} (h : (r.layAll update growth).2 = .ok ()) :
    (r.layAll update growth).1 = { r with fields := Record.overlay r.fields update } := by
  unfold layAll at h ⊢
  induction update generalizing r with
  | nil => rfl
  | cons f update ih =>
    cases hf : r.lay f growth with
    | error error => rw [Answer.foldUntilRefused_cons_error hf] at h; cases h
    | ok s =>
      rw [Answer.foldUntilRefused_cons_ok hf] at h ⊢
      rw [ih h, lay_granted hf]
      rfl

/-- A merge that is granted is the overlay of the lists. -/
theorem overlay_granted {base update : Contents} (h : r.overlay base update growth = .ok s) :
    s = { r with fields := Record.overlay base.fields update.fields } := by
  obtain ⟨-, -, h⟩ := Answer.bind_eq_ok.1 h
  obtain ⟨-, -, h⟩ := Answer.bind_eq_ok.1 h
  obtain ⟨copied, hcopied, h⟩ := Answer.bind_eq_ok.1 h
  obtain ⟨-, rfl⟩ := become_eq_ok.1 hcopied
  have hleft := whole_eq_ok.1 h
  have hlaid := layAll_granted (congrArg Prod.snd hleft)
  rw [hleft] at hlaid
  exact hlaid

end

/-- **If all fields are short enough, only their number can be refused.** -/
theorem layAll_of_short {r : Row} {update : List Field}
    (hshort : ∀ f ∈ update, f.name.length ≤ r.limit ∧ f.value.length ≤ r.limit)
    (hcount : r.fields.length ≤ Record.maxLength) :
    (r.layAll update).2 =
      if Record.maxLength < (Record.overlay r.fields update).length then .error .tooManyFields
      else .ok () := by
  unfold layAll
  induction update generalizing r with
  | nil => rw [Record.overlay_nil, if_neg (by omega)]; rfl
  | cons f update ih =>
    obtain ⟨hname, hvalue⟩ := hshort f List.mem_cons_self
    have hrest : ∀ g ∈ update, g.name.length ≤ r.limit ∧ g.value.length ≤ r.limit :=
      fun g hg => hshort g (List.mem_cons_of_mem _ hg)
    rw [Record.overlay_cons]
    cases hany : r.fields.any fun g => g.name == f.name with
    | true =>
      have hlay : r.lay f = .ok { r with fields := Record.put r.fields f } := by
        rw [lay, hany, if_pos rfl, if_neg (by omega), become_granted]
      rw [Answer.foldUntilRefused_cons_ok hlay]
      exact ih hrest (by rw [Record.length_put_of_any hany]; exact hcount)
    | false =>
      have habsent := Record.any_name_eq_false.1 hany
      have hput := Record.put_of_absent habsent
      have hlay : r.lay f = r.append f := lay_of_absent habsent
      by_cases hfull : r.fields.length < Record.maxLength
      · have happend : r.append f = .ok { r with fields := Record.put r.fields f } := by
          rw [hput]
          exact append_eq_ok.2 ⟨hname, hvalue, hfull, rfl⟩
        have hroom : (Record.put r.fields f).length ≤ Record.maxLength := by
          rw [hput, List.length_append, List.length_singleton]
          omega
        rw [Answer.foldUntilRefused_cons_ok (hlay.trans happend)]
        exact ih hrest hroom
      · have happend : r.append f = .error .tooManyFields := by
          rw [append, if_neg (by omega), if_neg (by omega), if_pos (by omega)]
        have hlonger := Record.length_le_overlay (Record.put r.fields f) update
        rw [hput, List.length_append, List.length_singleton, ← hput] at hlonger
        rw [Answer.foldUntilRefused_cons_error (hlay.trans happend), if_pos (by omega)]

/-- **Fields that are short enough and not too many are all granted.** -/
theorem layAll_of_fit {r : Row} {update : List Field}
    (hshort : ∀ f ∈ update, f.name.length ≤ r.limit ∧ f.value.length ≤ r.limit)
    (hcount : (Record.overlay r.fields update).length ≤ Record.maxLength) :
    (r.layAll update).2 = .ok () := by
  have hrow := Nat.le_trans (Record.length_le_overlay r.fields update) hcount
  rw [layAll_of_short hshort hrow, if_neg (Nat.not_lt.2 hcount)]

/-- **Laying an update over a row that can be written** is refused for the update's fault, or if too
    many fields would be left. -/
theorem overlay_stored {row : List Field} (hrow : Record.Fits row) {c : Contents}
    (hc : ∀ f ∈ c.fields, f.Fits) :
    overlay ⟨Record.maxLength, row⟩ ⟨row, none⟩ c =
      match c.fault with
      | some error => .error error
      | none =>
        if Record.maxLength < (Record.overlay row c.fields).length then .error .tooManyFields
        else .ok ⟨Record.maxLength, Record.overlay row c.fields⟩ := by
  have hcount : row.length ≤ Record.maxLength := Nat.le_of_lt_succ hrow.1
  have houtcome := layAll_of_short (r := ⟨Record.maxLength, row⟩)
    (fun f hf => (hc f hf).short) hcount
  unfold overlay Contents.verdict
  cases c.fault with
  | some error => rfl
  | none =>
    show whole (layAll ⟨Record.maxLength, row⟩ c.fields) = ite _ _ _
    split at houtcome
    · rename_i hlong
      rw [if_pos hlong, whole, houtcome]
      rfl
    · rename_i hshort
      rw [if_neg hshort, whole, houtcome, layAll_granted houtcome]
      rfl

end Row

/-! ## 3. Replacing a value where it stands -/

namespace Record

/-- The written form up to the length of a value: the count, the fields before, and the name. -/
def encodeUpTo (count : Nat) (before : List Field) (name : Bytes) : Bytes :=
  Bytes.u32 count ++ (before.flatMap Field.encode ++ (Bytes.u32 name.length ++ name))

/-- The written form, parted at the length of one value and at the value. -/
theorem encode_around (before after : List Field) (f : Field) :
    encode (before ++ f :: after) =
      encodeUpTo (before ++ f :: after).length before f.name ++
        (Bytes.u32 f.value.length ++ (f.value ++ after.flatMap Field.encode)) := by
  simp only [encode, encodeUpTo, List.flatMap_append, List.flatMap_cons, Field.encode,
    List.append_assoc]

/-- With another value a list takes as many bytes more, or less, as the value has. -/
theorem size_with_value (before after : List Field) (f : Field) (value : Bytes) :
    size (before ++ ⟨f.name, value⟩ :: after) + f.value.length =
      size (before ++ f :: after) + value.length := by
  induction before with
  | nil =>
    simp only [List.nil_append, size]
    omega
  | cons g before ih =>
    simp only [List.cons_append, size]
    omega

/-- A list that can be written still can be with another value that can. -/
theorem Fits.with_value {before after : List Field} {f : Field}
    (h : Fits (before ++ f :: after)) {value : Bytes} (hvalue : value.length < 4294967296) :
    Fits (before ++ ⟨f.name, value⟩ :: after) := by
  obtain ⟨hcount, hfields⟩ := h
  refine ⟨by simpa using hcount, fun g hg => ?_⟩
  have hf := hfields f (List.mem_append_right _ List.mem_cons_self)
  rcases List.mem_append.1 hg with hg | hg
  · exact hfields g (List.mem_append_left _ hg)
  · rcases List.mem_cons.1 hg with rfl | hg
    · exact ⟨hf.1, hvalue⟩
    · exact hfields g (List.mem_append_right _ (List.mem_cons_of_mem _ hg))

end Record

/-- The offsets of an entry behind the fields before it. -/
theorem Entry.offsets_behind (count : Nat) (before : List Field) (f : Field) :
    let e : Entry := ⟨4 + (before.flatMap Field.encode).length, f.name, f.value⟩
    e.nameEnd = (Record.encodeUpTo count before f.name).length ∧
      e.valueStart = (Record.encodeUpTo count before f.name).length + 4 := by
  simp only [Entry.nameEnd, Entry.nameStart, Entry.valueStart, Record.encodeUpTo,
    List.length_append, Bytes.length_u32]
  omega

namespace Record

/-- **A value written over one of the same length** leaves the written form of the list with the new
    value: the old length stands already. -/
theorem encode_overwrite (before after : List Field) (f : Field) {value : Bytes}
    (hlength : f.value.length = value.length) :
    let e : Entry := ⟨4 + (before.flatMap Field.encode).length, f.name, f.value⟩
    (encode (before ++ f :: after)).overwrite e.valueStart value =
      encode (before ++ ⟨f.name, value⟩ :: after) := by
  intro e
  have hcount : (before ++ (⟨f.name, value⟩ : Field) :: after).length =
      (before ++ f :: after).length := by simp
  rw [encode_around, encode_around, hcount,
    (Entry.offsets_behind (before ++ f :: after).length before f).2]
  generalize encodeUpTo (before ++ f :: after).length before f.name = upTo
  have hstart : upTo.length + 4 = (upTo ++ Bytes.u32 f.value.length).length := by
    rw [List.length_append, Bytes.length_u32]
  rw [hstart, ← List.append_assoc, Bytes.overwrite_append hlength, hlength, List.append_assoc]

/-- **A value cut out and replaced, and its length written anew**, leaves the written form of the
    list with the new value, whatever the two lengths are. -/
theorem encode_splice (before after : List Field) (f : Field) (value : Bytes) :
    let e : Entry := ⟨4 + (before.flatMap Field.encode).length, f.name, f.value⟩
    ((encode (before ++ f :: after)).splice e.valueStart e.valueEnd value).overwrite e.nameEnd
        (Bytes.u32 value.length) =
      encode (before ++ ⟨f.name, value⟩ :: after) := by
  intro e
  have hcount : (before ++ (⟨f.name, value⟩ : Field) :: after).length =
      (before ++ f :: after).length := by simp
  obtain ⟨hnameEnd, hvalueStart⟩ :=
    Entry.offsets_behind (before ++ f :: after).length before f
  have hvalueEnd : e.valueEnd = e.valueStart + f.value.length := rfl
  rw [encode_around, encode_around, hcount, hvalueEnd, hnameEnd, hvalueStart]
  generalize encodeUpTo (before ++ f :: after).length before f.name = upTo
  have hstart : upTo.length + 4 = (upTo ++ Bytes.u32 f.value.length).length := by
    rw [List.length_append, Bytes.length_u32]
  rw [hstart, ← List.append_assoc, Bytes.splice_append, List.append_assoc,
    Bytes.overwrite_append (by rw [Bytes.length_u32, Bytes.length_u32])]

end Record

namespace Buffer

variable {b : Buffer} {r : Row} {before after : List Field} {f : Field} {growth memory : Growth}

/-- A buffer whose bytes are those of the list with another value holds that list, if there was
    memory for it. -/
theorem holds_replaced (h : b.HoldsUnder growth memory r)
    (hfields : r.fields = before ++ f :: after) {value : Bytes}
    (hvalue : value.length < 4294967296)
    (hasked : memory.ask (Record.size (before ++ ⟨f.name, value⟩ :: after)) = .ok ())
    {replaced : Buffer} (hlimit : replaced.limit = b.limit)
    (hbytes : replaced.bytes = Record.encode (before ++ ⟨f.name, value⟩ :: after))
    (hroom : replaced.room = max b.room replaced.bytes.length) :
    replaced.HoldsUnder growth memory { r with fields := before ++ ⟨f.name, value⟩ :: after } := by
  have hwritten := h.holds.written
  rw [hfields] at hwritten
  refine .grown h.memory_eq ⟨hlimit.trans h.holds.limit_eq, hwritten.fits.with_value hvalue, hbytes⟩
    hasked ?_
  rw [hroom, hbytes, Record.length_encode]

/-- **A value is replaced where it stands**: the new value, its length and everything around them
    are the written form of the list with the new value. A longer one needs memory for the whole
    list, and a shorter one has room. -/
theorem agree_replaceValue_under (h : b.HoldsUnder growth memory r)
    (hfields : r.fields = before ++ f :: after) {value : Bytes}
    (hvalue : value.length < 4294967296) :
    Agree (HoldsUnder growth memory)
      (b.replaceValue ⟨4 + (before.flatMap Field.encode).length, f.name, f.value⟩ value
        growth).answer
      (if r.limit < value.length then .error (.fieldTooLarge value.length r.limit)
        else r.become (before ++ ⟨f.name, value⟩ :: after) memory) := by
  have hbytes : b.bytes = Record.encode (before ++ f :: after) :=
    hfields ▸ h.holds.written.eq_encode
  have hsize : Record.size (before ++ ⟨f.name, value⟩ :: after) + f.value.length =
      b.bytes.length + value.length := by
    rw [hbytes, Record.length_encode]
    exact Record.size_with_value before after f value
  have hshrunk : value.length ≤ f.value.length →
      memory.ask (Record.size (before ++ ⟨f.name, value⟩ :: after)) = .ok () := fun hshort =>
    ask_of_le_room h.memory_eq (by omega)
  have hspliced := Record.encode_splice before after f value
  rw [← hbytes] at hspliced
  unfold replaceValue Row.become
  rw [h.holds.limit_eq]
  dsimp only
  split
  · exact .error _
  · split
    · rename_i hsame
      have hasked := hshrunk (Nat.le_of_eq hsame.symm)
      have hover := Record.encode_overwrite before after f hsame
      rw [← hbytes] at hover
      rw [hasked]
      have hlength : (b.bytes.overwrite (Entry.valueStart
          ⟨4 + (before.flatMap Field.encode).length, f.name, f.value⟩) value).length =
          b.bytes.length := by
        rw [hover, Record.length_encode]
        omega
      refine .ok (holds_replaced h hfields hvalue hasked h.holds.limit_eq.symm hover ?_)
      dsimp only [room]
      omega
    · split
      · rename_i hlonger
        have hgrown : b.bytes.length + (value.length - f.value.length) =
            Record.size (before ++ ⟨f.name, value⟩ :: after) := by omega
        rw [Checked.answer_bind, answer_reserve, h.memory_eq, hgrown]
        cases hasked : memory.ask (Record.size (before ++ ⟨f.name, value⟩ :: after)) with
        | error cause => exact .error _
        | ok u =>
          refine .ok (holds_replaced h hfields hvalue hasked rfl hspliced ?_)
          have hlength := congrArg List.length hspliced
          rw [Record.length_encode] at hlength
          rw [room_withBytes, room_grow, Nat.max_assoc, ← hlength]
          exact congrArg _ (Nat.max_self _)
      · rename_i hlonger
        have hasked := hshrunk (Nat.le_of_not_lt hlonger)
        rw [hasked]
        exact .ok (holds_replaced h hfields hvalue hasked rfl hspliced (b.room_withBytes _))

/-- With memory for everything the limit decides. -/
theorem agree_replaceValue (h : b.Holds r) (hfields : r.fields = before ++ f :: after)
    {value : Bytes} (hvalue : value.length < 4294967296) :
    Agree Holds
      (b.replaceValue ⟨4 + (before.flatMap Field.encode).length, f.name, f.value⟩ value).answer
      (if r.limit < value.length then .error (.fieldTooLarge value.length r.limit)
        else .ok { r with fields := before ++ ⟨f.name, value⟩ :: after }) :=
  agree_of_under (agree_replaceValue_under h.underGranted hfields hvalue)

/-! ## 4. Merging -/

/-- **Laying a field over the record is laying it over the list.** -/
theorem agree_put_under (h : b.HoldsUnder growth memory r) {f : Field} (hf : f.Fits) :
    Agree (HoldsUnder growth memory) (b.put f growth).answer (r.lay f memory) := by
  have hlookup := b.view.answer_locate? f.name
  rw [contents_of_holds h.holds] at hlookup
  unfold put
  rw [Checked.answer_bind, hlookup]
  obtain ⟨habsent, hnone⟩ | ⟨before, g, after, hfields, hg, hbefore, hsome⟩ :=
    Record.find?_entries 4 r.fields f.name
  · rw [hnone, Row.lay_of_absent habsent]
    exact (agree_append_under h (hf.writableUnder r.limit)).then_report fun _ => rfl
  · rw [hsome, Row.lay_of_first hfields hbefore hg]
    exact (agree_replaceValue_under h hfields hf.2).then_report fun _ => rfl

theorem agree_put (h : b.Holds r) {f : Field} (hf : f.Fits) :
    Agree Holds (b.put f).answer (r.lay f) :=
  agree_of_under (agree_put_under h.underGranted hf)

/-- **Laying an update over the record is laying its fields over the list.** -/
theorem holds_overlay_under (h : b.HoldsUnder growth memory r) {update : View}
    (hfault : update.contents.fault = none) :
    (b.overlay update growth).value.Holds (r.layAll update.contents.fields memory) := by
  have hfold := Agree.fold (R := HoldsUnder growth memory)
    (f := fun b f => (b.put f growth).answer) (g := fun r f => Row.lay r f memory)
    update.contents.fields (fun _ _ hs _ hf => agree_put_under hs (View.fits_of_mem_contents hf)) h
  have hwalk := View.value_foldUntilRefused_walk (fun b f => put b f growth) update b
  rw [Contents.verdict_eq_ok.2 hfault, Answer.judgedBy_ok] at hwalk
  unfold overlay Row.layAll
  rw [Metered.value_bind, hwalk]
  exact ⟨hfold.1.holds, hfold.2⟩

theorem holds_overlay (h : b.Holds r) {update : View} (hfault : update.contents.fault = none) :
    (b.overlay update).value.Holds (r.layAll update.contents.fields) :=
  holds_overlay_under h.underGranted hfault

end Buffer

section

variable {out : Buffer} {r : Row} {growth memory : Growth} {base : View}

/-- Both records are looked at, the first one first, and then the first one is taken over. -/
theorem agree_prepareMerge (hlimit : out.limit = r.limit)
    (hmemory : growth.within out.room = memory) (hbase : 4 ≤ base.bytes.length) (update : View) :
    Agree (Buffer.HoldsUnder growth memory) (prepareMerge base update out growth).answer (do
      base.contents.verdict
      update.contents.verdict
      r.become base.contents.fields memory) := by
  unfold prepareMerge
  rw [Checked.answer_bind, View.answer_validate]
  cases hb : base.contents.verdict with
  | error error => exact .error error
  | ok u =>
    show Agree _ (update.validate >>= _).answer _
    rw [Checked.answer_bind, View.answer_validate]
    cases update.contents.verdict with
    | error error => exact .error error
    | ok u =>
      have hfault := Contents.verdict_eq_ok.1 hb
      exact Buffer.agree_copy hlimit hmemory hbase hfault

/-- What is laid over the first record before anything is cleared. -/
theorem reaches_layOver (hlimit : out.limit = r.limit) (hmemory : growth.within out.room = memory)
    (hbase : 4 ≤ base.bytes.length) (update : View) :
    (layOver base update out growth).value.Reaches r
      (r.overlay base.contents update.contents memory) := by
  have hprepare := agree_prepareMerge hlimit hmemory hbase update
  unfold layOver Row.overlay
  rw [Metered.value_bind, Checked.value_run]
  generalize (prepareMerge base update out growth).answer = answer at hprepare ⊢
  cases hb : base.contents.verdict with
  | error error =>
    rw [hb] at hprepare
    cases hprepare with
    | error => exact Edited.reaches_error hlimit error
  | ok u =>
    cases hu : update.contents.verdict with
    | error error =>
      rw [hb, hu] at hprepare
      cases hprepare with
      | error => exact Edited.reaches_error hlimit error
    | ok u =>
      rw [hb, hu] at hprepare
      show Edited.Reaches _ r (r.become base.contents.fields memory >>= fun r =>
        Row.whole (r.layAll update.contents.fields memory))
      change Agree _ answer (r.become base.contents.fields memory) at hprepare
      generalize hbecome : r.become base.contents.fields memory = y at hprepare ⊢
      cases hprepare with
      | error error => exact Edited.reaches_error hlimit error
      | ok hcopied =>
        have hlaid := Buffer.holds_overlay_under hcopied (Contents.verdict_eq_ok.1 hu)
        refine hlaid.reaches ((Row.limit_layAll _ _ _).trans ?_)
        rw [(Row.become_eq_ok.1 hbecome).2]

/-- **Merging records is laying their fields over each other**: a refused merge leaves no field, and
    what the output held before does not matter. -/
theorem holds_mergeInto_under (hlimit : out.limit = r.limit)
    (hmemory : growth.within out.room = memory) (hbase : 4 ≤ base.bytes.length) (update : View) :
    (mergeInto base update out growth).value.Holds
      (r.orClear (r.overlay base.contents update.contents memory)) := by
  have hmerge : (mergeInto base update out growth).value =
      (layOver base update out growth).value.clearIfRefused := by
    unfold mergeInto Edited.clearIfRefused
    rw [Metered.value_bind, Metered.value_bind]
    obtain ⟨buffer, outcome⟩ := (layOver base update out growth).value
    cases outcome <;> rfl
  rw [hmerge]
  exact (reaches_layOver hlimit hmemory hbase update).holds_clearIfRefused

theorem holds_mergeInto (hlimit : out.limit = r.limit) (hbase : 4 ≤ base.bytes.length)
    (update : View) :
    (mergeInto base update out).value.Holds
      (r.orClear (r.overlay base.contents update.contents)) :=
  holds_mergeInto_under hlimit (Growth.within_granted _) hbase update

end

/-! ## 5. Merging well-formed records -/

/-- Written records are merged as their lists are. -/
theorem holds_mergeInto_of_written {base update : View} {fields changes : List Field}
    (hbase : Record.Written base.bytes fields) (hupdate : Record.Written update.bytes changes)
    {out : Buffer} {limit : Nat} (hlimit : out.limit = limit) :
    (mergeInto base update out).value.Holds
      (Row.orClear ⟨limit, fields⟩ (Row.whole (Row.layAll ⟨limit, fields⟩ changes))) := by
  have hmerge := holds_mergeInto (r := ⟨limit, fields⟩) hlimit hbase.header update
  rw [View.contents_of_written hbase, View.contents_of_written hupdate] at hmerge
  exact hmerge

/-- **Merging two records is laying the fields of one over those of the other**, with names
    repeated in either as often as they like. The merge is granted unless a field of the update is
    refused by the list; granted, it leaves the written form of the overlay, and refused, the empty
    record. What the output held before does not matter. -/
theorem merging_overlays_fields {base update : View} {fields changes : List Field}
    (hbase : Record.Written base.bytes fields) (hupdate : Record.Written update.bytes changes)
    (out : Buffer) :
    let edited := (mergeInto base update out).value
    edited.outcome = (Row.layAll ⟨out.limit, fields⟩ changes).2 ∧
    (edited.outcome = .ok () →
      edited.buffer.bytes = Record.encode (Record.overlay fields changes)) ∧
    (∀ error, edited.outcome = .error error → edited.buffer.bytes = Record.emptyBytes) ∧
    ((∀ f ∈ changes, f.name.length ≤ out.limit ∧ f.value.length ≤ out.limit) →
      (Record.overlay fields changes).length ≤ Record.maxLength → edited.outcome = .ok ()) ∧
    ∀ other : Buffer, other.limit = out.limit →
      (mergeInto base update other).value.outcome = edited.outcome ∧
      (mergeInto base update other).value.buffer.bytes = edited.buffer.bytes := by
  have hout := holds_mergeInto_of_written hbase hupdate (Eq.refl out.limit)
  have houtcome : (mergeInto base update out).value.outcome =
      (Row.layAll ⟨out.limit, fields⟩ changes).2 :=
    hout.outcome.trans (Row.outcome_orClear_whole _ _)
  refine ⟨houtcome, fun hok => ?_, fun error herror => ?_, fun hshort hcount => ?_,
    fun other hlimit => ⟨?_, ?_⟩⟩
  · have hgranted := houtcome.symm.trans hok
    have hlaid := Row.layAll_granted hgranted
    have hbuffer := hout.buffer.written.eq_encode
    rw [Row.whole, hgranted] at hbuffer
    rw [hbuffer]
    show Record.encode (Row.layAll ⟨out.limit, fields⟩ changes).1.fields = _
    rw [hlaid]
  · have hrefused := houtcome.symm.trans herror
    have hbuffer := hout.buffer.written.eq_encode
    rw [Row.whole, hrefused] at hbuffer
    exact hbuffer.trans Record.encode_nil
  · rw [houtcome]
    exact Row.layAll_of_fit hshort hcount
  · have hother := holds_mergeInto_of_written hbase hupdate hlimit
    rw [hother.outcome, hout.outcome]
  · have hother := holds_mergeInto_of_written hbase hupdate hlimit
    rw [hother.buffer.written.eq_encode, hout.buffer.written.eq_encode]

/-- A row with a repeated name, an update that repeats a name, brings a value of another length and
    a new field, and an output that holds no record at all. -/
theorem merging_repeated_names :
    let fields : List Field := [⟨[97], [1]⟩, ⟨[98], [2, 2]⟩, ⟨[97], [3]⟩]
    let changes : List Field := [⟨[97], [9, 9, 9]⟩, ⟨[99], []⟩, ⟨[97], []⟩]
    (mergeInto ⟨Record.encode fields⟩ ⟨Record.encode changes⟩ ⟨[7], 3, 1⟩).value.buffer.bytes =
      Record.encode [⟨[97], []⟩, ⟨[98], [2, 2]⟩, ⟨[97], [3]⟩, ⟨[99], []⟩] := by
  intro fields changes
  let base : View := ⟨Record.encode fields⟩
  let update : View := ⟨Record.encode changes⟩
  have hbase : Record.Written base.bytes fields := Record.written_encode (by decide)
  have hupdate : Record.Written update.bytes changes := Record.written_encode (by decide)
  have hmerge := merging_overlays_fields hbase hupdate ⟨[7], 3, 1⟩
  exact hmerge.2.1 (hmerge.2.2.2.1 (by decide) (by decide))

end FieldRecords
