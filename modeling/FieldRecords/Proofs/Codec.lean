import FieldRecords.Config
import FieldRecords.Proofs.Contents

/-!
# Written forms

`Record.Written bytes fields` says that the bytes are the written form of the fields. This file
ties it to what the bytes hold:

* written fields are read back, whatever follows them (`Contents.read_encode_append`), so a view
  of a written form holds exactly the fields, without a fault (`View.contents_of_written`);
* what is read was written (`Contents.eq_encode_of_read`), so **bytes that hold no fault are the
  written form of what they hold** (`Record.written_of_fault_none`);
* fields have one written form, and a written form has one list of fields
  (`Record.Written.unique`).
-/

namespace FieldRecords

/-! ## 1. Lengths -/

/-- A field that can be written is short enough for a buffer without settings. -/
theorem Field.Fits.short {f : Field} (h : f.Fits) :
    f.name.length ≤ Record.maxLength ∧ f.value.length ≤ Record.maxLength :=
  ⟨Nat.le_of_lt_succ h.1, Nat.le_of_lt_succ h.2⟩

namespace Record

/-- How many bytes the written form takes: four for the count, and for every field eight for the
    two lengths, besides the name and the value. -/
def size : List Field → Nat
  | [] => 4
  | f :: fields => 8 + f.name.length + f.value.length + size fields

theorem length_flatMap_encode (fields : List Field) :
    4 + (fields.flatMap Field.encode).length = size fields := by
  induction fields with
  | nil => rfl
  | cons f fields ih =>
    rw [List.flatMap_cons, List.length_append, Field.length_encode, Field.size, size, ← ih]
    omega

theorem length_encode (fields : List Field) : (encode fields).length = size fields := by
  rw [encode, List.length_append, Bytes.length_u32, length_flatMap_encode]

/-- A field takes eight bytes and more. -/
theorem length_flatMap_encode_ge (fields : List Field) :
    8 * fields.length ≤ (fields.flatMap Field.encode).length := by
  induction fields with
  | nil => exact Nat.le_refl 0
  | cons f fields ih =>
    rw [List.flatMap_cons, List.length_append, List.length_cons, Field.length_encode, Field.size]
    omega

/-! ## 2. Bytes and the fields they are the written form of -/

/-- **The bytes are the written form of the fields.** -/
structure Written (bytes : Bytes) (fields : List Field) : Prop where
  fits : Fits fields
  eq_encode : bytes = encode fields

theorem written_encode {fields : List Field} (h : Fits fields) : Written (encode fields) fields :=
  ⟨h, rfl⟩

theorem written_nil : Written emptyBytes [] :=
  ⟨⟨by decide, fun _ hf => absurd hf List.not_mem_nil⟩, rfl⟩

theorem Written.length_eq {bytes : Bytes} {fields : List Field} (h : Written bytes fields) :
    bytes.length = size fields := by
  rw [h.eq_encode, length_encode]

theorem Written.header {bytes : Bytes} {fields : List Field} (h : Written bytes fields) :
    4 ≤ bytes.length := by
  rw [h.length_eq, ← length_flatMap_encode]
  exact Nat.le_add_right 4 _

end Record

/-! ## 3. Reading what was written -/

namespace Contents

/-- **Written fields are read back**, and reading goes on behind them. -/
theorem read_encode_append {fields : List Field} (h : ∀ f ∈ fields, f.Fits) (count offset : Nat)
    (rest : Bytes) :
    read (fields.length + count) offset (fields.flatMap Field.encode ++ rest) =
      let behind := read count (offset + (fields.flatMap Field.encode).length) rest
      ⟨fields ++ behind.fields, behind.fault⟩ := by
  induction fields generalizing offset with
  | nil => simp
  | cons f fields ih =>
    have hf := h f List.mem_cons_self
    have hfields : ∀ g ∈ fields, g.Fits := fun g hg => h g (List.mem_cons_of_mem _ hg)
    have hend : (⟨offset, f.name, f.value⟩ : Entry).valueEnd = offset + f.encode.length := by
      rw [Entry.valueEnd_eq]
      rfl
    rw [List.length_cons, Nat.add_right_comm, read, List.flatMap_cons, List.append_assoc,
      Entry.decode_encode hf]
    simp only [hend, ih hfields, cons, Entry.field, List.length_append, Nat.add_assoc,
      List.cons_append]

/-- Written fields and nothing behind them are held without a fault. -/
theorem read_encode {fields : List Field} (h : ∀ f ∈ fields, f.Fits) (offset : Nat) :
    read fields.length offset (fields.flatMap Field.encode) = ⟨fields, none⟩ := by
  have := read_encode_append h 0 offset []
  simpa [read] using this

/-- **What is read was written**: the bytes start with the written forms of the fields they hold,
    and without a fault that is all. -/
theorem eq_encode_of_read (count offset : Nat) (bs : Bytes) :
    (∀ f ∈ (read count offset bs).fields, f.Fits) ∧
      ∃ rest, bs = (read count offset bs).fields.flatMap Field.encode ++ rest ∧
        ((read count offset bs).fault = none →
          (read count offset bs).fields.length = count ∧ rest = []) := by
  induction count generalizing offset bs with
  | zero =>
    refine ⟨fun f hf => absurd hf List.not_mem_nil, bs, rfl, fun hfault => ⟨rfl, ?_⟩⟩
    cases bs with
    | nil => rfl
    | cons b bs => cases hfault
  | succ count ih =>
    cases hd : Entry.decode offset bs with
    | error error =>
      simp only [read, hd]
      refine ⟨fun f hf => absurd hf List.not_mem_nil, bs, rfl, fun hfault => ?_⟩
      cases hfault
    | ok decoded =>
      obtain ⟨e, tail⟩ := decoded
      obtain ⟨-, hfits, rfl⟩ := Entry.eq_encode_of_decode hd
      obtain ⟨hall, rest, htail, hwhole⟩ := ih e.valueEnd tail
      simp only [read, hd, cons]
      refine ⟨?_, rest, ?_, fun hfault => ?_⟩
      · intro f hf
        rcases List.mem_cons.1 hf with rfl | hf
        · exact hfits
        · exact hall f hf
      · rw [List.flatMap_cons, List.append_assoc, ← htail]
      · obtain ⟨hlength, hrest⟩ := hwhole hfault
        exact ⟨by rw [List.length_cons, hlength], hrest⟩

/-- No more fields are read than are declared. -/
theorem length_fields_read_le (count offset : Nat) (bs : Bytes) :
    (read count offset bs).fields.length ≤ count := by
  induction count generalizing offset bs with
  | zero => exact Nat.le_refl 0
  | succ count ih =>
    unfold read
    split
    · exact Nat.succ_le_succ (ih _ _)
    · exact Nat.zero_le _

end Contents

/-! ## 4. Views of written forms -/

namespace View

variable {v : View} {fields : List Field}

/-- A view needs the count and nothing more. -/
theorem answer_ofBytes (bytes : Bytes) :
    (ofBytes bytes).answer =
      if bytes.length < 4 then .error (.malformed bytes.length .missingHeader)
      else .ok ⟨bytes⟩ := by
  unfold ofBytes
  split <;> rfl

theorem answer_ofBytes_of_written {bytes : Bytes} (h : Record.Written bytes fields) :
    (ofBytes bytes).answer = .ok ⟨bytes⟩ := by
  have hheader := h.header
  rw [answer_ofBytes, if_neg (by omega)]

theorem length_of_written (h : Record.Written v.bytes fields) : v.length = fields.length := by
  rw [length, h.eq_encode, Record.encode, Bytes.readU32?_u32 h.fits.1]

/-- Whatever a view holds could be read, so it can be written. -/
theorem fits_of_mem_contents {f : Field} (hf : f ∈ v.contents.fields) : f.Fits :=
  (Contents.eq_encode_of_read v.length 4 (v.bytes.drop 4)).1 f hf

/-- A count takes four bytes. -/
theorem length_le_maxLength (v : View) : v.length ≤ Record.maxLength := by
  unfold length
  split
  · rename_i hread
    exact Nat.le_of_lt_succ (Bytes.eq_u32_of_readU32? hread).1
  · exact Nat.zero_le _

/-- A view holds no more fields than a record can have. -/
theorem length_contents_le (v : View) : v.contents.fields.length ≤ Record.maxLength :=
  Nat.le_trans (Contents.length_fields_read_le v.length 4 (v.bytes.drop 4)) v.length_le_maxLength

/-- **A view holds no more fields than are expected**, whatever its count declares. -/
theorem length_contents_le_expectedFields (v : View) :
    v.contents.fields.length ≤ v.expectedFields := by
  obtain ⟨-, rest, hrest, -⟩ := Contents.eq_encode_of_read v.length 4 (v.bytes.drop 4)
  have hbytes := congrArg List.length hrest
  rw [List.length_drop, List.length_append] at hbytes
  have hsize := Record.length_flatMap_encode_ge v.contents.fields
  have hcount : v.contents.fields.length ≤ v.length := Contents.length_fields_read_le _ _ _
  change v.bytes.length - 4 = (v.contents.fields.flatMap Field.encode).length + rest.length
    at hbytes
  unfold expectedFields
  omega

/-- A view holds what is read behind the count. -/
theorem contents_u32_append {count : Nat} (h : count < 4294967296) (rest : Bytes) :
    (mk (Bytes.u32 count ++ rest)).contents = .read count 4 rest := by
  rw [contents, length, Bytes.readU32?_u32 h]
  rfl

/-- **A view of a written form holds exactly the fields.** -/
theorem contents_of_written (h : Record.Written v.bytes fields) : v.contents = ⟨fields, none⟩ := by
  have hbytes : v = ⟨Bytes.u32 fields.length ++ fields.flatMap Field.encode⟩ :=
    congrArg View.mk h.eq_encode
  rw [hbytes, contents_u32_append h.fits.1, Contents.read_encode h.fits.2]

end View

namespace Record

/-- **Bytes that hold no fault are the written form of what they hold.** -/
theorem written_of_fault_none {bytes : Bytes} (hheader : 4 ≤ bytes.length)
    (h : (View.mk bytes).contents.fault = none) :
    Written bytes (View.mk bytes).contents.fields := by
  obtain ⟨⟨count, rest⟩, hread⟩ : ∃ x, Bytes.readU32? bytes = some x := by
    rw [← Option.isSome_iff_exists, Option.isSome_iff_ne_none, Ne, Bytes.readU32?_eq_none_iff]
    omega
  obtain ⟨hcount, rfl⟩ := Bytes.eq_u32_of_readU32? hread
  rw [View.contents_u32_append hcount] at h ⊢
  obtain ⟨hfits, tail, hrest, hwhole⟩ := Contents.eq_encode_of_read count 4 rest
  obtain ⟨hlength, rfl⟩ := hwhole h
  refine ⟨⟨by rw [hlength]; exact hcount, hfits⟩, ?_⟩
  rw [encode, hlength, ← List.append_nil (List.flatMap _ _), ← hrest]

/-- A written form has one list of fields. -/
theorem Written.unique {bytes : Bytes} {fields₁ fields₂ : List Field}
    (h₁ : Written bytes fields₁) (h₂ : Written bytes fields₂) : fields₁ = fields₂ := by
  have h := (View.contents_of_written (v := ⟨bytes⟩) h₁).symm.trans
    (View.contents_of_written (v := ⟨bytes⟩) h₂)
  exact congrArg Contents.fields h

end Record

end FieldRecords
