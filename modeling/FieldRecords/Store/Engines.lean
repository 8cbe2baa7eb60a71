import Std.Data.ExtTreeMap
import FieldRecords.Store.Program

/-!
# Stores

* `MemoryStore` keeps its pairs in key order, keys compared byte by byte.
* `NullStore` accepts every write and finds nothing.
* `UnscannableStore` is a memory store that cannot scan.
-/

namespace FieldRecords

/-! ## 1. Pairs in memory -/

/-- Values by key, in key order. -/
abbrev MemoryStore := Std.ExtTreeMap Bytes Bytes compare

namespace MemoryStore

/-- Up to `count` pairs, from the first key on that is not below `key`. -/
def pairsFrom (m : MemoryStore) (key : Bytes) (count : Nat) : List (Bytes × Bytes) :=
  (m.toList.dropWhile fun pair => compare pair.1 key == .lt).take count

/-- **What each request does to the pairs.** -/
def serve : (request : Request) → MemoryStore → request.Reply × MemoryStore
  | .insert key value, m => ((), m.insert key value)
  | .read key, m => (m[key]?, m)
  | .update key value, m => ((), m.insert key value)
  | .delete key, m => (m.contains key, m.erase key)
  | .scan key count, m => (some (m.pairsFrom key count), m)

instance : KeyValueStore MemoryStore := ⟨serve⟩

end MemoryStore

/-! ## 2. A store that keeps nothing -/

/-- The store without a state. -/
structure NullStore where
deriving DecidableEq

namespace NullStore

/-- Writes are accepted; nothing is found. -/
def serve : (request : Request) → NullStore → request.Reply × NullStore
  | .insert _ _, s => ((), s)
  | .read _, s => (none, s)
  | .update _ _, s => ((), s)
  | .delete _, s => (false, s)
  | .scan _ _, s => (some [], s)

instance : KeyValueStore NullStore := ⟨serve⟩

end NullStore

/-! ## 3. A store that cannot scan -/

/-- Pairs in memory that cannot be scanned. -/
structure UnscannableStore where
  pairs : MemoryStore

namespace UnscannableStore

/-- As in memory, but for `scan`. -/
def serve : (request : Request) → UnscannableStore → request.Reply × UnscannableStore
  | .insert key value, ⟨m⟩ => ((), ⟨m.insert key value⟩)
  | .read key, ⟨m⟩ => (m[key]?, ⟨m⟩)
  | .update key value, ⟨m⟩ => ((), ⟨m.insert key value⟩)
  | .delete key, ⟨m⟩ => (m.contains key, ⟨m.erase key⟩)
  | .scan _ _, s => (none, s)

instance : KeyValueStore UnscannableStore := ⟨serve⟩

end UnscannableStore

end FieldRecords
