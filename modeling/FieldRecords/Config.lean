/-!
# Settings of the codec

Three settings: how many bytes a new record gets up front, how long a name or a value may be, and
in which order a projection writes its fields. Any values can be set; `Config.validate` says
whether they make sense together, and `ConfigError.message` says why not.
-/

namespace FieldRecords

/-- The order in which a projection writes the fields it keeps. -/
inductive ProjectionOrder where
  /-- As they are stored. -/
  | source
  /-- As they are asked for. -/
  | request
deriving DecidableEq

namespace Record

/-- The largest number that four bytes can hold: the longest name or value, and the most fields,
    that a record can have. -/
def maxLength : Nat := 4294967295

/-- The bytes of the count, which every record has. -/
def headerSize : Nat := 4

end Record

/-- The settings of the codec. -/
structure Config where
  /-- The bytes that a new record has room for, the count included. -/
  initialCapacity : Nat
  /-- The longest name or value that is accepted. -/
  maxFieldLength : Nat
  projectionOrder : ProjectionOrder
deriving DecidableEq

/-- Why settings are refused. -/
inductive ConfigError where
  | initialCapacityTooSmall
  | maxFieldLengthZero
  | maxFieldLengthTooLarge
  /-- The file is not there, or is not text. -/
  | unreadable
  /-- The text is not a settings document. -/
  | unparsable
deriving DecidableEq

namespace ConfigError

/-- What is wrong with the settings, in words. -/
def detail : ConfigError → String
  | initialCapacityTooSmall =>
    s!"initial_capacity must hold at least the {Record.headerSize}-byte header"
  | maxFieldLengthZero => "max_field_len cannot be zero"
  | maxFieldLengthTooLarge => s!"max_field_len cannot be larger than {Record.maxLength}"
  | unreadable => "couldn't read config file"
  | unparsable => "couldn't parse config file"

/-- The error in words: the setting it is about, and what is wrong with it. -/
def message : ConfigError → String
  | initialCapacityTooSmall => s!"invalid initial_capacity: {initialCapacityTooSmall.detail}"
  | maxFieldLengthZero => s!"invalid max_field_len: {maxFieldLengthZero.detail}"
  | maxFieldLengthTooLarge => s!"invalid max_field_len: {maxFieldLengthTooLarge.detail}"
  | unreadable => unreadable.detail
  | unparsable => unparsable.detail

end ConfigError

namespace Config

/-- The settings that serve any workload. -/
def standard : Config := ⟨1024, Record.maxLength, .source⟩

/-- The settings make sense: the count has room, some field is accepted, and no field is accepted
    that cannot be written. The capacity is looked at first. -/
def validate (c : Config) : Except ConfigError Unit :=
  if c.initialCapacity < Record.headerSize then
    .error .initialCapacityTooSmall
  else if c.maxFieldLength = 0 then
    .error .maxFieldLengthZero
  else if Record.maxLength < c.maxFieldLength then
    .error .maxFieldLengthTooLarge
  else
    .ok ()

end Config

end FieldRecords
