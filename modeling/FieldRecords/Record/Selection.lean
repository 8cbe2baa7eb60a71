import Std.Data.HashSet
import Std.Data.TreeSet
import FieldRecords.Text.Utf8

/-!
# Which fields are wanted

A selection answers whether a name is wanted, and lists the wanted names. A list lists them as
they were given, repeated names included; an ordered set lists them in byte order; the order of
an unordered set is unspecified. A set of texts means the bytes of its texts.
-/

namespace FieldRecords

/-- A choice of field names. Nothing chosen is not the same as everything chosen. -/
inductive Selection where
  | list (names : List Bytes)
  | set (names : Std.HashSet Bytes)
  | texts (names : Std.HashSet String)
  | sorted (names : Std.TreeSet Bytes compare)

namespace Selection

/-- No name is wanted. -/
def isEmpty : Selection → Bool
  | list names => names.isEmpty
  | set names => names.isEmpty
  | texts names => names.isEmpty
  | sorted names => names.isEmpty

/-- The name is wanted. -/
def wants : Selection → Bytes → Bool
  | list names, name => names.any (· == name)
  | set names, name => names.contains name
  | texts names, name =>
    match Utf8.toText? name with
    | some text => names.contains text
    | none => false
  | sorted names, name => names.contains name

/-- The wanted names, in the order in which they are asked for. -/
def names : Selection → List Bytes
  | list names => names
  | set names => names.toList
  | texts names => names.toList.map Utf8.ofText
  | sorted names => names.toList

end Selection

end FieldRecords
