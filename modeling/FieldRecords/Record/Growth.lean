import FieldRecords.Record.Error
import FieldRecords.Room

/-!
# Growing

A record that gets longer than there is room for asks for memory, and what becomes of that is not
up to the record. So whatever may grow takes a `Growth`, which answers for every size. Asking
within the room that is there is granted in any case (`Growth.within`).
-/

namespace FieldRecords

/-- **What becomes of asking for memory**, for every number of bytes. What is granted is granted for
    fewer bytes too. That leaves nothing out: an operation asks for more from one time to the next,
    and ends with the first refusal. Memory that is given beyond what was asked for is granted when
    it is asked for later. -/
structure Growth where
  ask : Nat → Except AllocationFailure Unit
  granted_of_le : ∀ {size larger : Nat}, size ≤ larger → ask larger = .ok () → ask size = .ok ()

namespace Growth

/-- There is memory for everything. -/
def granted : Growth := ⟨fun _ => .ok (), fun _ _ => rfl⟩

/-- There is memory for `most` bytes. More is refused by the allocator, or because no byte string
    may be that long. -/
def upTo (most : Nat) : Growth where
  ask size :=
    if size ≤ most then .ok ()
    else if Room.maxBytes < size then .error .capacityOverflow
    else .error .allocatorRefused
  granted_of_le := by
    intro size larger hle hgranted
    by_cases hlarger : larger ≤ most
    · exact if_pos (Nat.le_trans hle hlarger)
    · rw [if_neg hlarger] at hgranted
      split at hgranted <;> cases hgranted

/-- **Within `room` bytes there is nothing to ask for.** -/
def within (growth : Growth) (room : Nat) : Growth where
  ask size := if size ≤ room then .ok () else growth.ask size
  granted_of_le := by
    intro size larger hle hgranted
    by_cases hsize : size ≤ room
    · exact if_pos hsize
    · rw [if_neg (fun h => hsize (Nat.le_trans hle h))] at hgranted
      rw [if_neg hsize]
      exact growth.granted_of_le hle hgranted

@[ext] theorem ext {growth other : Growth} (h : ∀ size, growth.ask size = other.ask size) :
    growth = other := by
  cases growth
  cases other
  congr
  exact funext h

@[simp] theorem ask_granted (size : Nat) : granted.ask size = .ok () := rfl

theorem ask_within (growth : Growth) (room size : Nat) :
    (growth.within room).ask size = if size ≤ room then .ok () else growth.ask size := rfl

/-- What there is room for is granted. -/
theorem ask_within_of_le (growth : Growth) {room size : Nat} (h : size ≤ room) :
    (growth.within room).ask size = .ok () :=
  if_pos h

@[simp] theorem within_granted (room : Nat) : granted.within room = granted := by
  ext size : 1
  rw [ask_within]
  split <;> rfl

/-- **Room that was granted changes nothing about what is granted.** -/
theorem within_max (growth : Growth) {room size : Nat}
    (h : (growth.within room).ask size = .ok ()) :
    growth.within (max room size) = growth.within room := by
  ext n : 1
  rw [ask_within, ask_within]
  by_cases hn : n ≤ room
  · rw [if_pos hn, if_pos (Nat.le_trans hn (Nat.le_max_left _ _))]
  · rw [if_neg hn]
    split
    · -- beyond the room, so the larger size was asked for
      have hsize : n ≤ size := by omega
      rw [ask_within, if_neg (by omega)] at h
      exact (growth.granted_of_le hsize h).symm
    · rfl

end Growth

end FieldRecords
