import FieldRecords.Proofs.Keys
import FieldRecords.Proofs.Tables

/-!
# Scans over generated rows

A store keeps its pairs in key order, and a scan finds them in this order from the first key on that
is not below the one it starts from (`MemoryStore.pairsFrom_eq`). Keys of generated rows are in the
order of the numbers that their ids are scrambled to, so **a scan comes by generated rows in
ascending order of their scrambled ids** (`keys_ordered_by_scrambled_ids`), which is not the order
of the ids.
-/

namespace FieldRecords

namespace MemoryStore

variable (m : MemoryStore) (start : Bytes) (count : Nat)

/-- **A scan finds pairs in key order.** -/
theorem pairsFrom_ascending : (m.pairsFrom start count).Pairwise fun p q =>
    compare p.1 q.1 = .lt := by
  rw [pairsFrom_eq]
  exact (Std.ExtTreeMap.ordered_keys_toList.sublist List.filter_sublist).sublist
    (List.take_sublist _ _)

/-- What a scan finds is not below the key that it starts from. -/
theorem not_below_of_mem_pairsFrom {pair : Bytes × Bytes} (h : pair ∈ m.pairsFrom start count) :
    compare pair.1 start ≠ .lt := by
  rw [pairsFrom_eq] at h
  simpa using (List.mem_filter.1 (List.mem_of_mem_take h)).2

end MemoryStore

/-- **Generated keys do not collide, and are in the order of the scrambled ids.** Scrambling takes
    no two numbers to the same one. Whatever stood where keys are made, all keys have twenty-four
    bytes, keys of two ids are the same only if the ids are, and they are compared byte by byte as
    the scrambled ids are compared as numbers. So whatever a memory store holds besides, a scan
    comes by generated rows in ascending order of their scrambled ids, and from a generated key on
    by none below it. -/
theorem keys_ordered_by_scrambled_ids :
    (∀ a b, scramble a = scramble b → a = b) ∧
    (∀ held other a b, Schema.fillKey held a = Schema.fillKey other b → a = b) ∧
    (∀ held id, (Schema.fillKey held id).length = 24) ∧
    (∀ held other a b, compare (Schema.fillKey held a) (Schema.fillKey other b) =
      compare (scramble a).toNat (scramble b).toNat) ∧
    ∀ (m : MemoryStore) (start : Bytes) (count : Nat), ∃ pairs,
      (KeyValueStore.serve (.scan start count) m).1 = some pairs ∧
      (pairs.Pairwise fun p q => ∀ a b, p.1 = Schema.key a → q.1 = Schema.key b →
        scramble a < scramble b) ∧
      ∀ id, start = Schema.key id → ∀ p ∈ pairs, ∀ a, p.1 = Schema.key a →
        scramble id ≤ scramble a := by
  simp only [Schema.fillKey_eq]
  refine ⟨fun a b => scramble_injective, fun _ _ a b => Schema.key_injective,
    fun _ id => Schema.length_key id, fun _ _ a b => Schema.compare_key a b,
    fun m start count => ⟨m.pairsFrom start count, rfl, ?_, ?_⟩⟩
  · refine (m.pairsFrom_ascending start count).imp fun hlt a b hp hq => ?_
    rw [hp, hq, Schema.compare_key, Nat.compare_eq_lt] at hlt
    exact UInt64.lt_iff_toNat_lt.2 hlt
  · rintro id rfl p hp a hkey
    have hnot := m.not_below_of_mem_pairsFrom (Schema.key id) count hp
    rw [hkey, Schema.compare_key, Ne, Nat.compare_eq_lt, Nat.not_lt] at hnot
    exact UInt64.le_iff_toNat_le.2 hnot

/-- Two of the smallest ids, in a store with a key that is not generated. The row of the greater id
    comes first, since its id is scrambled to a smaller number, which has a zero in front. -/
theorem scan_of_two_generated_rows :
    let m : MemoryStore :=
      ((Std.ExtTreeMap.insert ∅ (Schema.fillKey [9] 1) [1]).insert (Schema.fillKey [] 2) [2]).insert
        [0] [3]
    (KeyValueStore.serve (.scan (Schema.key 0) 9) m).1 =
        some [(Schema.key 2, [2]), (Schema.key 1, [1])] ∧
      (Schema.fillKey [] 2).length = 24 ∧ scramble 2 < scramble 1 := by
  intro m
  obtain ⟨-, -, hlength, -, hscan⟩ := keys_ordered_by_scrambled_ids
  have hzero : Schema.key 0 = [117, 115, 101, 114] ++ List.replicate 20 48 := by
    rw [Schema.key_eq]
    decide
  have hone : Schema.key 1 = [117, 115, 101, 114, 49, 50, 57, 57, 52, 55, 56, 49, 53, 54, 54, 50,
      50, 55, 49, 48, 54, 54, 48, 52] := by
    rw [Schema.key_eq]
    decide
  have htwo : Schema.key 2 = [117, 115, 101, 114, 48, 52, 50, 51, 51, 49, 52, 56, 52, 57, 51, 51,
      55, 51, 56, 48, 49, 52, 52, 55] := by
    rw [Schema.key_eq]
    decide
  have hpairs : m.pairsFrom (Schema.key 0) 9 = [(Schema.key 2, [2]), (Schema.key 1, [1])] := by
    simp only [m, Schema.fillKey_eq, hzero, hone, htwo]
    decide
  have hfound : (KeyValueStore.serve (.scan (Schema.key 0) 9) m).1 =
      some [(Schema.key 2, [2]), (Schema.key 1, [1])] := congrArg some hpairs
  refine ⟨hfound, hlength [] 2, ?_⟩
  obtain ⟨pairs, hserved, hascending, -⟩ := hscan m (Schema.key 0) 9
  cases hfound.symm.trans hserved
  exact (List.pairwise_cons.1 hascending).1 _ List.mem_cons_self 2 1 rfl rfl

end FieldRecords
