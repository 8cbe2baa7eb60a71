/-!
# Byte strings

Names, values, keys and whole records are finite byte strings. This file fixes the two readings
every other file is built on:

* a number below 2^32 is written as four bytes, least significant first (`Bytes.u32`), and read
  back from the front of a byte string (`Bytes.readU32?`); `readU32?_u32` and
  `eq_u32_of_readU32?` say that the two are inverse to each other;
* a prefix of a given length is split off (`Bytes.split?`), or the byte string is too short
  (`split?_eq_some_iff`).

Parts are exchanged in two ways: written over (`Bytes.overwrite`, the length stays) or cut out and
replaced (`Bytes.splice`, what follows moves). `overwrite_append` and `splice_append` say that what
stands before and behind the part is kept.
-/

namespace FieldRecords

/-- A finite byte string. -/
abbrev Bytes := List UInt8

namespace Bytes

/-! ## 1. Numbers of four bytes -/

/-- The four bytes of `n`, least significant first. Only `n` modulo 2^32 is written. -/
def u32 (n : Nat) : Bytes :=
  [n.toUInt8, (n / 256).toUInt8, (n / 65536).toUInt8, (n / 16777216).toUInt8]

/-- The number at the front of a byte string and what follows it; `none` if fewer than four
    bytes are left. -/
@[inline] def readU32? : Bytes → Option (Nat × Bytes)
  | a :: b :: c :: d :: rest =>
    some (a.toNat + 256 * b.toNat + 65536 * c.toNat + 16777216 * d.toNat, rest)
  | _ => none

@[simp] theorem length_u32 (n : Nat) : (u32 n).length = 4 := rfl

/-- **A written number is read back**, whatever follows it. -/
theorem readU32?_u32 {n : Nat} (h : n < 4294967296) (rest : Bytes) :
    readU32? (u32 n ++ rest) = some (n, rest) := by
  simp only [u32, readU32?, List.cons_append, List.nil_append, Nat.toUInt8, UInt8.toNat_ofNat']
  congr 2
  omega

/-- **What is read was written**: four bytes are the writing of exactly one number. -/
theorem eq_u32_of_readU32? : ∀ {bs : Bytes} {n : Nat} {rest : Bytes},
    readU32? bs = some (n, rest) → n < 4294967296 ∧ bs = u32 n ++ rest
  | a :: b :: c :: d :: r, n, rest, h => by
    simp only [readU32?, Option.some.injEq, Prod.mk.injEq] at h
    obtain ⟨hn, rfl⟩ := h
    have ha := a.toNat_lt
    have hb := b.toNat_lt
    have hc := c.toNat_lt
    have hd := d.toNat_lt
    refine ⟨by omega, ?_⟩
    simp only [u32, List.cons_append, List.nil_append, List.cons.injEq, and_true]
    refine ⟨?_, ?_, ?_, ?_⟩ <;> apply UInt8.toNat_inj.1 <;>
      simp only [Nat.toUInt8, UInt8.toNat_ofNat'] <;> omega
  | [], _, _, h => nomatch h
  | [_], _, _, h => nomatch h
  | [_, _], _, _, h => nomatch h
  | [_, _, _], _, _, h => nomatch h

/-- Four bytes are needed, and four are enough. -/
theorem readU32?_eq_none_iff {bs : Bytes} : readU32? bs = none ↔ bs.length < 4 := by
  rcases bs with _ | ⟨a, _ | ⟨b, _ | ⟨c, _ | ⟨d, r⟩⟩⟩⟩ <;> simp [readU32?]

/-! ## 2. Prefixes of a given length -/

/-- The first `n` bytes and what follows them; `none` if there are fewer. -/
@[inline] def split? (n : Nat) (bs : Bytes) : Option (Bytes × Bytes) :=
  let (head, rest) := bs.splitAt n
  if head.length = n then some (head, rest) else none

/-- **Splitting succeeds exactly on the byte strings that have the prefix.** -/
theorem split?_eq_some_iff {n : Nat} {bs head rest : Bytes} :
    split? n bs = some (head, rest) ↔ head.length = n ∧ bs = head ++ rest := by
  simp only [split?, List.splitAt_eq]
  constructor
  · intro h
    split at h
    · rename_i hl
      simp only [Option.some.injEq, Prod.mk.injEq] at h
      obtain ⟨rfl, rfl⟩ := h
      exact ⟨hl, (List.take_append_drop n bs).symm⟩
    · cases h
  · rintro ⟨rfl, rfl⟩
    simp

/-- Splitting fails exactly on the byte strings that are too short. -/
theorem split?_eq_none_iff {n : Nat} {bs : Bytes} : split? n bs = none ↔ bs.length < n := by
  simp only [split?, List.splitAt_eq, List.length_take]
  split <;> simp <;> omega

/-! ## 3. Exchanging a part -/

/-- `new` written over the bytes from offset `start` on. -/
def overwrite (bs : Bytes) (start : Nat) (new : Bytes) : Bytes :=
  bs.take start ++ (new ++ bs.drop (start + new.length))

/-- The bytes between two offsets exchanged for `new`; what follows moves. -/
def splice (bs : Bytes) (start stop : Nat) (new : Bytes) : Bytes :=
  bs.take start ++ (new ++ bs.drop stop)

/-- Nothing gets lost behind what is written over. -/
theorem length_le_overwrite (bs : Bytes) (start : Nat) (new : Bytes) :
    bs.length ≤ (bs.overwrite start new).length := by
  simp only [overwrite, List.length_append, List.length_take, List.length_drop]
  omega

/-- A part of the same length is written over, and nothing else changes. -/
theorem overwrite_append {old new : Bytes} (h : old.length = new.length) (before after : Bytes) :
    (before ++ (old ++ after)).overwrite before.length new = before ++ (new ++ after) := by
  simp [overwrite, ← h, List.drop_append]

/-- A part is exchanged, whatever its length, and what follows it is kept. -/
theorem splice_append (before old after new : Bytes) :
    (before ++ (old ++ after)).splice before.length (before.length + old.length) new =
      before ++ (new ++ after) := by
  simp [splice, List.drop_append]

end Bytes

end FieldRecords
