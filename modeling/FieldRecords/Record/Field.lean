import FieldRecords.Bytes

/-!
# Fields and the written form of a record

A record is a list of named values. Its written form is the number of fields followed by the
fields, each as the length of the name, the name, the length of the value, the value:

    count | name length | name | value length | value | …

Every number takes four bytes (`Bytes.u32`); there is no padding and no terminator.
-/

namespace FieldRecords

/-- A named value. -/
structure Field where
  name : Bytes
  value : Bytes
deriving DecidableEq

namespace Field

/-- The number of bytes a field with a name and a value of these lengths takes. -/
def size (nameLength valueLength : Nat) : Nat :=
  8 + nameLength + valueLength

/-- The written form of one field. -/
def encode (f : Field) : Bytes :=
  Bytes.u32 f.name.length ++ f.name ++ (Bytes.u32 f.value.length ++ f.value)

/-- The field can be written: both lengths fit their four bytes. -/
def Fits (f : Field) : Prop :=
  f.name.length < 4294967296 ∧ f.value.length < 4294967296

instance (f : Field) : Decidable f.Fits := inferInstanceAs (Decidable (_ ∧ _))

@[simp] theorem length_encode (f : Field) :
    f.encode.length = size f.name.length f.value.length := by
  simp only [encode, size, List.length_append, Bytes.length_u32]
  omega

end Field

namespace Record

/-- **The written form of a record**: how many fields there are, then every field. -/
def encode (fields : List Field) : Bytes :=
  Bytes.u32 fields.length ++ fields.flatMap Field.encode

/-- The record can be written: the number of fields and all lengths fit their four bytes. -/
def Fits (fields : List Field) : Prop :=
  fields.length < 4294967296 ∧ ∀ f ∈ fields, f.Fits

instance (fields : List Field) : Decidable (Fits fields) := inferInstanceAs (Decidable (_ ∧ _))

/-- The written form of the record without fields. -/
def emptyBytes : Bytes := [0, 0, 0, 0]

theorem encode_nil : encode [] = emptyBytes := rfl

end Record

end FieldRecords
