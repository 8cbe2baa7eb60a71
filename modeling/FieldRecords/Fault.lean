import FieldRecords.Config

/-!
# Faults

A fault is a use that the library has no answer for, as opposed to an error, which is an answer:
an operation mix that does not add up, a sampler over no items, a field that a schema does not
have, a store engine that is not there. Whoever runs into one is stopped with `Fault.message`.
-/

namespace FieldRecords

/-- Why a sampler cannot be had. -/
inductive SamplerError where
  /-- There is nothing to draw from. -/
  | emptyRange
  /-- A Zipf distribution over less than one item. -/
  | tooFewItems
  /-- A Zipf distribution with a negative exponent. -/
  | exponentTooSmall
deriving DecidableEq

/-- A store engine that a plan can name but that is not part of this build. -/
inductive AbsentEngine where
  | sled
  | redb
  | lmdb
deriving DecidableEq

/-- A use without an answer. -/
inductive Fault where
  /-- More bytes are asked for than any byte string may have. -/
  | capacityOverflow
  /-- More seconds than a duration can have. -/
  | durationOverflow
  /-- A draw beyond the last operation of a mix. -/
  | drawBeyondMix
  /-- The percentages of a mix that is put to use are not a hundred together. -/
  | mixNotHundred
  /-- A hot spot larger than the whole. -/
  | hotSpotAboveOne
  | noSampler (cause : SamplerError)
  | indexOutOfBounds (length index : Nat)
  /-- A schema without fields. -/
  | noFields
  | settings (cause : ConfigError)
  | engineAbsent (engine : AbsentEngine)
  /-- The ids cannot be shared out evenly; so many are left over. -/
  | unevenLoad (remainder : Nat)
  /-- One of the loaders was stopped by a fault of its own. -/
  | loaderStopped
deriving DecidableEq

namespace SamplerError

def name : SamplerError → String
  | emptyRange => "EmptyRange"
  | tooFewItems => "NTooSmall"
  | exponentTooSmall => "STooSmall"

end SamplerError

namespace ConfigError

/-- The kind of the error and its detail, as they stand in a fault. -/
def description : ConfigError → String
  | initialCapacityTooSmall => s!"InitialCapacity(\"{initialCapacityTooSmall.detail}\")"
  | maxFieldLengthZero => s!"MaxFieldLen(\"{maxFieldLengthZero.detail}\")"
  | maxFieldLengthTooLarge => s!"MaxFieldLen(\"{maxFieldLengthTooLarge.detail}\")"
  | unreadable => "Io"
  | unparsable => "Parse"

end ConfigError

namespace AbsentEngine

/-- The engine's name, and the name of the build feature that would bring it in. -/
def names : AbsentEngine → String × String
  | sled => ("Sled", "sled")
  | redb => ("ReDB", "redb")
  | lmdb => ("LMDB", "lmdb")

end AbsentEngine

namespace Fault

/-- An answer was taken for granted, and this error came instead. -/
def unexpected (error : String) : String :=
  s!"called `Result::unwrap()` on an `Err` value: {error}"

/-- The fault in words. -/
def message : Fault → String
  | capacityOverflow => "capacity overflow"
  | durationOverflow => "overflow in Duration::new"
  | drawBeyondMix => "Invalid workload mix"
  | mixNotHundred => "workload mix must add up to 100!"
  | hotSpotAboveOne => "assertion failed: *skew <= 1.0"
  | noSampler cause => unexpected cause.name
  | indexOutOfBounds length index =>
    s!"index out of bounds: the len is {length} but the index is {index}"
  | noFields => "field_count must be positive!"
  | settings cause => unexpected cause.description
  | engineAbsent engine =>
    s!"{engine.names.1} is not enabled in the build, run with --features `{engine.names.2}`!"
  | unevenLoad remainder =>
    s!"assertion `left == right` failed\n  left: {remainder}\n right: 0"
  | loaderStopped => unexpected "Any \x7b .. \x7d"

end Fault

end FieldRecords
