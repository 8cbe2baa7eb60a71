import FieldRecords.Record.Field
import FieldRecords.Record.Error

/-!
# One field, where it stands

An entry is a field together with the offset at which its written form starts; the other offsets
follow from the lengths (`nameStart`, `nameEnd`, `valueStart`, `valueEnd`). `Entry.decode` reads
the entry at the front of a byte string, or says what is missing and at which offset. What it
reads is exactly what `Field.encode` writes (`decode_encode`, `eq_encode_of_decode`), and what it
refuses is cut off (`truncated_of_decode`).
-/

namespace FieldRecords

/-- A field and the offset of its first byte, where the length of the name stands. -/
structure Entry where
  start : Nat
  name : Bytes
  value : Bytes
deriving DecidableEq

namespace Entry

/-- The field that stands here. -/
def field (e : Entry) : Field := ⟨e.name, e.value⟩

/-! ## 1. Offsets -/

/-- The offset of the name. -/
def nameStart (e : Entry) : Nat := e.start + 4

/-- The offset after the name, where the length of the value stands. -/
def nameEnd (e : Entry) : Nat := e.nameStart + e.name.length

/-- The offset of the value. -/
def valueStart (e : Entry) : Nat := e.nameEnd + 4

/-- The offset after the value, where the next entry starts. -/
def valueEnd (e : Entry) : Nat := e.valueStart + e.value.length

/-- An entry ends as many bytes after its start as its field takes. -/
theorem valueEnd_eq (e : Entry) : e.valueEnd = e.start + e.field.encode.length := by
  simp only [valueEnd, valueStart, nameEnd, nameStart, Field.length_encode, Field.size, field]
  omega

/-! ## 2. Reading -/

/-- The entry at the front of `bs`, whose first byte has offset `start`, and what follows it. -/
@[inline] def decode (start : Nat) (bs : Bytes) : Except CodecError (Entry × Bytes) :=
  match Bytes.readU32? bs with
  | none => .error (.malformed start .truncatedLength)
  | some (nameLength, bs) =>
    match Bytes.split? nameLength bs with
    | none => .error (.malformed (start + 4) .truncatedName)
    | some (name, bs) =>
      match Bytes.readU32? bs with
      | none => .error (.malformed (start + 4 + nameLength) .truncatedLength)
      | some (valueLength, bs) =>
        match Bytes.split? valueLength bs with
        | none => .error (.malformed (start + 4 + nameLength + 4) .truncatedValue)
        | some (value, rest) => .ok (⟨start, name, value⟩, rest)

/-- **A written field is read back**, whatever follows it. -/
theorem decode_encode {f : Field} (h : f.Fits) (start : Nat) (rest : Bytes) :
    decode start (f.encode ++ rest) = .ok (⟨start, f.name, f.value⟩, rest) := by
  have hn : Bytes.split? f.name.length
      (f.name ++ (Bytes.u32 f.value.length ++ (f.value ++ rest))) = some (f.name, _) :=
    Bytes.split?_eq_some_iff.2 ⟨rfl, rfl⟩
  have hv : Bytes.split? f.value.length (f.value ++ rest) = some (f.value, rest) :=
    Bytes.split?_eq_some_iff.2 ⟨rfl, rfl⟩
  simp only [decode, Field.encode, List.append_assoc, Bytes.readU32?_u32 h.1,
    Bytes.readU32?_u32 h.2, hn, hv]

/-- **What is read was written**: the bytes are the written form of the entry's field, followed
    by the rest. -/
theorem eq_encode_of_decode {start : Nat} {bs rest : Bytes} {e : Entry}
    (h : decode start bs = .ok (e, rest)) :
    e.start = start ∧ e.field.Fits ∧ bs = e.field.encode ++ rest := by
  unfold decode at h
  split at h
  · cases h
  rename_i nameLength bs₁ h₁
  split at h
  · cases h
  rename_i name bs₂ h₂
  split at h
  · cases h
  rename_i valueLength bs₃ h₃
  split at h
  · cases h
  rename_i value bs₄ h₄
  cases h
  obtain ⟨l₁, rfl⟩ := Bytes.eq_u32_of_readU32? h₁
  obtain ⟨rfl, rfl⟩ := Bytes.split?_eq_some_iff.1 h₂
  obtain ⟨l₃, rfl⟩ := Bytes.eq_u32_of_readU32? h₃
  obtain ⟨rfl, rfl⟩ := Bytes.split?_eq_some_iff.1 h₄
  refine ⟨rfl, ⟨l₁, l₃⟩, ?_⟩
  simp only [field, Field.encode, List.append_assoc]

/-- **An entry that cannot be read is cut off**, and the part that is missing starts within the
    bytes or right behind them. -/
theorem truncated_of_decode {start : Nat} {bs : Bytes} {error : CodecError}
    (h : decode start bs = .error error) :
    ∃ offset reason, error = .malformed offset reason ∧ reason.isTruncated ∧
      offset ≤ start + bs.length := by
  unfold decode at h
  split at h
  · cases h
    exact ⟨_, _, rfl, rfl, Nat.le_add_right start _⟩
  rename_i nameLength bs₁ h₁
  obtain ⟨-, rfl⟩ := Bytes.eq_u32_of_readU32? h₁
  split at h
  · cases h
    refine ⟨_, _, rfl, rfl, ?_⟩
    rw [List.length_append, Bytes.length_u32]
    omega
  rename_i name bs₂ h₂
  obtain ⟨rfl, rfl⟩ := Bytes.split?_eq_some_iff.1 h₂
  split at h
  · cases h
    refine ⟨_, _, rfl, rfl, ?_⟩
    simp only [List.length_append, Bytes.length_u32]
    omega
  rename_i valueLength bs₃ h₃
  obtain ⟨-, rfl⟩ := Bytes.eq_u32_of_readU32? h₃
  split at h
  · cases h
    refine ⟨_, _, rfl, rfl, ?_⟩
    simp only [List.length_append, Bytes.length_u32]
    omega
  · cases h

end Entry

end FieldRecords
