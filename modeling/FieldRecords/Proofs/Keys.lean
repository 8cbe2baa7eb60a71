import Mathlib.Algebra.Group.Nat.Defs
import FieldRecords.Workload.Schema

/-!
# Keys of generated rows

A key is made from an id in two steps. Scrambling consists of shifted copies and odd multiples,
which can be undone: a copy shifted by more than half of the bits is taken away by making it again,
and an odd number has an inverse modulo 2^64 (`unscramble_scramble`). Then the number is written
with leading zeros, and numbers that have enough digits are compared byte by byte as they are
compared as numbers (`compare_decimalDigits`); twenty digits are enough for 64 bits. Hence **keys
are in the order of the numbers that their ids are scrambled to** (`Schema.compare_key`), and
different ids have different keys (`Schema.key_injective`).
-/

namespace FieldRecords

/-! ## 1. Scrambling -/

/-- The steps of `scramble`, undone from the last to the first. -/
def unscramble (n : UInt64) : UInt64 :=
  let n := n ^^^ (n >>> 33)
  let n := n * 0x9cb4b2f8129337db
  let n := n ^^^ (n >>> 33)
  let n := n * 0x4f74430c22a54005
  n ^^^ (n >>> 33)

/-- A copy that is shifted by more than half of the bits is taken away by making it again. -/
theorem xor_shift_xor_shift (n : UInt64) :
    (n ^^^ (n >>> 33)) ^^^ ((n ^^^ (n >>> 33)) >>> 33) = n := by
  apply UInt64.toBitVec_inj.1
  simp only [UInt64.toBitVec_xor, UInt64.toBitVec_shiftRight]
  ext i hi
  have hgone : n.toBitVec.getLsbD (33 + (33 + i)) = false := BitVec.getLsbD_of_ge _ _ (by omega)
  simp [hgone]

/-- A multiple is undone by the inverse of the factor. -/
theorem mul_mul_inverse (n : UInt64) {a b : UInt64} (h : a * b = 1) : n * a * b = n := by
  rw [UInt64.mul_assoc, h, UInt64.mul_one]

/-- **Every scrambled number is unscrambled again.** -/
theorem unscramble_scramble (n : UInt64) : unscramble (scramble n) = n := by
  have hlast : (0xc4ceb9fe1a85ec53 : UInt64) * 0x9cb4b2f8129337db = 1 := by decide
  have hfirst : (0xff51afd7ed558ccd : UInt64) * 0x4f74430c22a54005 = 1 := by decide
  simp only [unscramble, scramble, xor_shift_xor_shift, mul_mul_inverse _ hlast,
    mul_mul_inverse _ hfirst]

theorem scramble_injective {a b : UInt64} (h : scramble a = scramble b) : a = b := by
  rw [← unscramble_scramble a, ← unscramble_scramble b, h]

/-! ## 2. Numbers with leading zeros -/

/-- Of byte strings with parts of the same length the first parts decide, if they differ. -/
theorem Bytes.compare_append {a b : Bytes} (h : a.length = b.length) (c d : Bytes) :
    compare (a ++ c) (b ++ d) = (compare a b).then (compare c d) := by
  induction a generalizing b with
  | nil =>
    cases b with
    | nil => rfl
    | cons y b => cases h
  | cons x a ih =>
    cases b with
    | nil => cases h
    | cons y b =>
      rw [List.cons_append, List.cons_append, List.compare_cons_cons, List.compare_cons_cons,
        ih (Nat.succ.inj h), Ordering.then_assoc]

/-- Numbers are compared by their tens, and by their units if these are the same. -/
theorem compare_eq_tens_then_units (m n : Nat) :
    compare m n = (compare (m / 10) (n / 10)).then (compare (m % 10) (n % 10)) := by
  rcases Nat.lt_trichotomy (m / 10) (n / 10) with htens | htens | htens
  · rw [Nat.compare_eq_lt.2 htens, Nat.compare_eq_lt.2 (by omega)]
    rfl
  · rw [Nat.compare_eq_eq.2 htens, Ordering.eq_then]
    rcases Nat.lt_trichotomy (m % 10) (n % 10) with hunits | hunits | hunits
    · rw [Nat.compare_eq_lt.2 hunits, Nat.compare_eq_lt.2 (by omega)]
    · rw [Nat.compare_eq_eq.2 hunits, Nat.compare_eq_eq.2 (by omega)]
    · rw [Nat.compare_eq_gt.2 hunits, Nat.compare_eq_gt.2 (by omega)]
  · rw [Nat.compare_eq_gt.2 htens, Nat.compare_eq_gt.2 (by omega)]
    rfl

theorem length_decimalDigits (width n : Nat) : (decimalDigits width n).length = width := by
  induction width generalizing n with
  | zero => rfl
  | succ width ih => rw [decimalDigits, List.length_append, ih, List.length_singleton]

/-- A digit is written as a byte that is compared like the digit. -/
theorem compare_digit (m n : Nat) :
    compare [(48 + m % 10).toUInt8] [(48 + n % 10).toUInt8] = compare (m % 10) (n % 10) := by
  have hbyte : ∀ k : Nat, (48 + k % 10).toUInt8.toNat = 48 + k % 10 := by
    intro k
    rw [Nat.toUInt8, UInt8.toNat_ofNat']
    omega
  rw [List.compare_cons_cons, List.compare_nil_nil, Ordering.then_eq]
  rcases Nat.lt_trichotomy (m % 10) (n % 10) with hunits | hunits | hunits
  · rw [Nat.compare_eq_lt.2 hunits, Std.compare_eq_lt, UInt8.lt_iff_toNat_lt, hbyte, hbyte]
    omega
  · rw [hunits, Nat.compare_eq_eq.2 rfl]
    exact Std.ReflCmp.compare_self
  · rw [Nat.compare_eq_gt.2 hunits, Std.compare_eq_gt, UInt8.lt_iff_toNat_lt, hbyte, hbyte]
    omega

/-- **Numbers that have enough digits are compared like their digits.** -/
theorem compare_decimalDigits {width m n : Nat} (hm : m < 10 ^ width) (hn : n < 10 ^ width) :
    compare (decimalDigits width m) (decimalDigits width n) = compare m n := by
  induction width generalizing m n with
  | zero =>
    rw [Nat.pow_zero] at hm hn
    obtain rfl : m = n := by omega
    exact (Nat.compare_eq_eq.2 rfl).symm
  | succ width ih =>
    rw [Nat.pow_succ] at hm hn
    have hlengths : (decimalDigits width (m / 10)).length =
        (decimalDigits width (n / 10)).length := by
      rw [length_decimalDigits, length_decimalDigits]
    rw [decimalDigits, decimalDigits, Bytes.compare_append hlengths, compare_digit,
      ih (by omega) (by omega), ← compare_eq_tens_then_units]

/-! ## 3. Keys -/

namespace Schema

/-- Of what stood in its place nothing is left in a key. -/
@[simp] theorem fillKey_eq (held : Bytes) (id : UInt64) : fillKey held id = key id := by
  rw [fillKey, List.take_zero, List.nil_append]

/-- The word that all keys start with. -/
theorem key_eq (id : UInt64) :
    key id = [117, 115, 101, 114] ++ decimalDigits 20 (scramble id).toNat := by
  have hword : Utf8.ofText "user" = [117, 115, 101, 114] := by
    rw [Utf8.ofText_eq]
    decide
  rw [key, hword]

/-- All keys are equally long. -/
theorem length_key (id : UInt64) : (key id).length = 24 := by
  rw [key_eq, List.length_append, length_decimalDigits]
  rfl

/-- **Keys are in the order of their scrambled ids.** -/
theorem compare_key (a b : UInt64) :
    compare (key a) (key b) = compare (scramble a).toNat (scramble b).toNat := by
  have henough : ∀ n : UInt64, n.toNat < 10 ^ 20 := fun n => Nat.lt_trans n.toNat_lt (by decide)
  have hword : compare (Utf8.ofText "user") (Utf8.ofText "user") = .eq := Std.ReflCmp.compare_self
  rw [key, key, Bytes.compare_append rfl, hword, Ordering.eq_then,
    compare_decimalDigits (henough _) (henough _)]

/-- **Different ids have different keys.** -/
theorem key_injective {a b : UInt64} (h : key a = key b) : a = b := by
  have hsame : compare (scramble a).toNat (scramble b).toNat = .eq := by
    rw [← compare_key, h]
    exact Std.ReflCmp.compare_self
  exact scramble_injective (UInt64.toNat_inj.1 (Nat.compare_eq_eq.1 hsame))

/-- A store takes keys for one another only if their ids are the same. -/
theorem compare_key_eq {a b : UInt64} : compare (key a) (key b) = .eq ↔ a = b := by
  constructor
  · exact fun h => key_injective (Std.LawfulEqCmp.eq_of_compare h)
  · rintro rfl
    exact Std.ReflCmp.compare_self

end Schema

end FieldRecords
