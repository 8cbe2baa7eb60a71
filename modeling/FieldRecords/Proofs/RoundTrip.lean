import FieldRecords.Proofs.Edits

/-!
# Reading and writing are inverse to each other

The written forms are exactly the byte strings that a view takes and finds valid, reading a
written form gives the fields it was written from, and writing these fields again gives the same
bytes (`reading_inverts_writing`). So a record is its fields: two buffers are the same record if
they hold the same fields (`Buffer.beq_iff_of_written`), and the order of the fields changes neither
the count nor the number of bytes (`View.rearranges_of_written`).
-/

namespace FieldRecords

/-! ## 1. Valid bytes -/

/-- **A byte string is valid if it is a written form.** -/
theorem View.valid_iff_written (bytes : Bytes) :
    (∃ v, (View.ofBytes bytes).answer = .ok v ∧ v.validate.answer = .ok ()) ↔
      ∃ fields, Record.Written bytes fields := by
  rw [View.answer_ofBytes]
  constructor
  · rintro ⟨v, hv, hvalid⟩
    split at hv
    · cases hv
    · rename_i hheader
      cases hv
      rw [View.answer_validate, Contents.verdict_eq_ok] at hvalid
      exact ⟨_, Record.written_of_fault_none (by omega) hvalid⟩
  · rintro ⟨fields, h⟩
    have hview := View.answer_ofBytes_of_written h
    rw [View.answer_ofBytes] at hview
    refine ⟨⟨bytes⟩, hview, ?_⟩
    rw [View.answer_validate, View.contents_of_written h]
    rfl

/-- The fields of a written form are read back. -/
theorem View.answer_toFields_of_written {v : View} {fields : List Field}
    (h : Record.Written v.bytes fields) : v.toFields.answer = .ok fields := by
  rw [View.answer_toFields, View.contents_of_written h]
  rfl

namespace Buffer

/-- A written form is adopted as it is. -/
theorem ofBytes_of_written {bytes : Bytes} {fields : List Field}
    (h : Record.Written bytes fields) :
    (Buffer.ofBytes bytes).answer = .ok ⟨bytes, Record.maxLength, bytes.length⟩ := by
  unfold Buffer.ofBytes
  rw [Checked.answer_bind, View.answer_ofBytes_of_written h]
  show ((View.mk bytes).validate >>= _).answer = _
  rw [Checked.answer_bind, View.answer_validate, View.contents_of_written (v := ⟨bytes⟩) h]
  rfl

/-- Fields that can be written make a buffer, and its bytes are their written form. -/
theorem fromFields_of_fits {fields : List Field} (h : Record.Fits fields) :
    ∃ b, (fromFields fields).answer = .ok b ∧ b.bytes = Record.encode fields := by
  have hshort : ∀ f ∈ fields, f.name.length ≤ Record.maxLength ∧
      f.value.length ≤ Record.maxLength := fun f hf => (h.2 f hf).short
  have hcount : fields.length ≤ Record.maxLength := Nat.le_of_lt_succ h.1
  have hrow : Row.ofFields fields = .ok ⟨Record.maxLength, fields⟩ := by
    rw [Row.ofFields, Row.extend_of_fit hshort (by simpa using hcount)]
    rfl
  obtain ⟨b, hmade, hholds⟩ := (hrow ▸ agree_fromFields fields).of_granted
  exact ⟨b, hmade, hholds.written.eq_encode⟩

/-- A buffer made of fields holds just these fields. -/
theorem written_of_fromFields {fields : List Field} {b : Buffer}
    (h : (fromFields fields).answer = .ok b) : Record.Written b.bytes fields := by
  obtain ⟨r, hrow, hholds⟩ := (h ▸ agree_fromFields fields).granted
  rw [Row.ofFields_granted hrow] at hholds
  exact hholds.written

/-- **Two buffers are the same record if they hold the same fields.** -/
theorem beq_iff_of_written {b₁ b₂ : Buffer} {fields₁ fields₂ : List Field}
    (h₁ : Record.Written b₁.bytes fields₁) (h₂ : Record.Written b₂.bytes fields₂) :
    (b₁ == b₂) = true ↔ fields₁ = fields₂ := by
  show (b₁.bytes == b₂.bytes) = true ↔ _
  rw [beq_iff_eq]
  constructor
  · intro h
    exact h₁.unique (h ▸ h₂)
  · rintro rfl
    rw [h₁.eq_encode, h₂.eq_encode]

end Buffer

/-! ## 2. The same fields in another order -/

/-- The order of the fields does not change how many bytes they take. -/
theorem Record.size_perm {fields others : List Field} (h : fields.Perm others) :
    size fields = size others := by
  induction h with
  | nil => rfl
  | cons f _ ih => rw [size, size, ih]
  | swap f g fields =>
    simp only [size]
    omega
  | trans _ _ ih₁ ih₂ => exact ih₁.trans ih₂

/-- **The two records have the same fields**, each as often, in whatever order. So they have the
    same count and take the same number of bytes. -/
structure View.Rearranges (v other : View) : Prop where
  toFields : ∃ fields others, v.toFields.answer = .ok fields ∧ other.toFields.answer = .ok others ∧
    fields.Perm others
  length_eq : v.length = other.length
  size_eq : v.bytes.length = other.bytes.length

/-- The written forms of two lists with the same fields. -/
theorem View.rearranges_of_written {v other : View} {fields others : List Field}
    (hv : Record.Written v.bytes fields) (hother : Record.Written other.bytes others)
    (h : fields.Perm others) : v.Rearranges other where
  toFields := ⟨fields, others, answer_toFields_of_written hv, answer_toFields_of_written hother, h⟩
  length_eq := by rw [length_of_written hv, length_of_written hother, h.length_eq]
  size_eq := by rw [hv.length_eq, hother.length_eq, Record.size_perm h]

/-! ## 3. The inverse -/

/-- **Reading accepts exactly what writing produces, and inverts it.** A byte string is valid if it
    is the written form of some fields; these are the only ones, they are read back in order, the
    byte string is adopted as it is, and a buffer made of the fields has its bytes again. A buffer
    made of any fields gives them back, and two records are the same if their fields are. -/
theorem reading_inverts_writing :
    (∀ bytes : Bytes,
      (∃ v, (View.ofBytes bytes).answer = .ok v ∧ v.validate.answer = .ok ()) ↔
        ∃ fields, Record.Fits fields ∧ Record.encode fields = bytes) ∧
    (∀ (bytes : Bytes) (fields : List Field), Record.Fits fields → Record.encode fields = bytes →
      (∀ others, Record.Fits others → Record.encode others = bytes → others = fields) ∧
      (∃ v, (View.ofBytes bytes).answer = .ok v ∧ v.toFields.answer = .ok fields) ∧
      (∃ b, (Buffer.ofBytes bytes).answer = .ok b ∧ b.bytes = bytes) ∧
      (∃ b, (Buffer.fromFields fields).answer = .ok b ∧ b.bytes = bytes)) ∧
    (∀ (fields : List Field) (b : Buffer), (Buffer.fromFields fields).answer = .ok b →
      (View.ofBytes b.bytes).answer = .ok b.view ∧ b.view.toFields.answer = .ok fields) ∧
    (∀ (b₁ b₂ : Buffer) (fields₁ fields₂ : List Field), Record.Written b₁.bytes fields₁ →
      Record.Written b₂.bytes fields₂ → ((b₁ == b₂) = true ↔ fields₁ = fields₂)) := by
  refine ⟨fun bytes => ?_, ?_, fun fields b hb => ?_, fun b₁ b₂ _ _ h₁ h₂ => ?_⟩
  · rw [View.valid_iff_written]
    constructor
    · rintro ⟨fields, h⟩
      exact ⟨fields, h.fits, h.eq_encode.symm⟩
    · rintro ⟨fields, hfits, rfl⟩
      exact ⟨fields, Record.written_encode hfits⟩
  · rintro bytes fields hfits rfl
    have h := Record.written_encode hfits
    have hview := View.answer_ofBytes_of_written h
    refine ⟨fun others hothers he => ?_, ⟨_, hview, View.answer_toFields_of_written h⟩,
      ⟨_, Buffer.ofBytes_of_written h, rfl⟩, Buffer.fromFields_of_fits hfits⟩
    exact (he ▸ Record.written_encode hothers).unique h
  · have h := Buffer.written_of_fromFields hb
    exact ⟨View.answer_ofBytes_of_written h, View.answer_toFields_of_written h⟩
  · exact Buffer.beq_iff_of_written h₁ h₂

end FieldRecords
