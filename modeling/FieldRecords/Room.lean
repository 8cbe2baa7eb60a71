import FieldRecords.Fault

/-!
# Room

Whoever makes many items at once asks for room for all of them first, in one block. No block is
longer than `Room.maxBytes`, so a number of items can be too large whatever they hold; asking for
them is a fault, and nothing is made. **There is room exactly for what fits one block**
(`Room.ask_eq_ok_iff`).
-/

namespace FieldRecords

namespace Room

/-- No block is longer than this. -/
def maxBytes : Nat := 9223372036854775807

/-- What a text takes in a list of texts, besides its characters. -/
def perText : Nat := 24

/-- What a buffer takes in a list of buffers, besides its bytes. -/
def perBuffer : Nat := 32

/-- Asks for room for `count` items that take `size` bytes each. -/
def ask (count size : Nat) : Except Fault Unit :=
  if maxBytes < count * size then .error .capacityOverflow else .ok ()

theorem ask_eq_ok_iff {count size : Nat} : ask count size = .ok () ↔ count * size ≤ maxBytes := by
  unfold ask
  split <;> simp <;> omega

end Room

end FieldRecords
