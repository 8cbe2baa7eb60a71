/-!
# Why a record is refused

A byte string is refused because its structure is broken at some offset (`Malformed` says how),
a field because it is longer than a buffer admits, an append because the count is exhausted, a
reservation because no memory of that size can be had. `CodecError.message` is the wording.
-/

namespace FieldRecords

/-- Where a record stops making sense. -/
inductive Malformed where
  /-- Fewer than four bytes, so not even the count is there. -/
  | missingHeader
  /-- A length runs past the end. -/
  | truncatedLength
  /-- A name runs past the end. -/
  | truncatedName
  /-- A value runs past the end. -/
  | truncatedValue
  /-- The declared fields end before the bytes do. -/
  | trailingBytes
deriving DecidableEq

/-- Why memory could not be reserved. -/
inductive AllocationFailure where
  /-- The size asked for is beyond what any byte string may have. -/
  | capacityOverflow
  /-- The allocator has no block of that size. -/
  | allocatorRefused
deriving DecidableEq

/-- Why an operation on records failed. -/
inductive CodecError where
  | malformed (offset : Nat) (reason : Malformed)
  | fieldTooLarge (length limit : Nat)
  | tooManyFields
  | allocation (cause : AllocationFailure)
deriving DecidableEq

namespace Malformed

/-- The reason in words. -/
def message : Malformed → String
  | missingHeader => "missing field count header"
  | truncatedLength => "truncated length prefix"
  | truncatedName => "truncated field name"
  | truncatedValue => "truncated field value"
  | trailingBytes => "trailing bytes after last field"

/-- Part of an entry is missing. -/
def isTruncated : Malformed → Bool
  | truncatedLength | truncatedName | truncatedValue => true
  | missingHeader | trailingBytes => false

end Malformed

namespace AllocationFailure

/-- The cause in words. -/
def message : AllocationFailure → String
  | capacityOverflow => "because the computed capacity exceeded the collection's maximum"
  | allocatorRefused => "because the memory allocator returned an error"

end AllocationFailure

namespace CodecError

/-- The error in words. -/
def message : CodecError → String
  | malformed offset reason => s!"malformed record encoding at byte {offset}: {reason.message}"
  | fieldTooLarge length limit => s!"field of {length} bytes exceeds the limit of {limit} bytes"
  | tooManyFields => "record already holds the maximum of 4294967295 fields"
  | allocation cause =>
    s!"failed to grow record buffer: memory allocation failed {cause.message}"

/-- The bytes being read are at fault, not the record being built. -/
def isMalformed : CodecError → Bool
  | malformed _ _ => true
  | _ => false

end CodecError

end FieldRecords
