import FieldRecords.Bytes

/-!
# Text as bytes

Text is written in UTF-8. Bytes that are text are read back exactly (`Utf8.toText?`,
`Utf8.toText?_eq_some_iff`). Bytes that need not be text are shown with U+FFFD in the place of every
maximal piece that cannot be part of a character (`Utf8.toTextLossy`): a piece is the longest start
of some well-formed sequence that stands there, and one byte if there is none.
-/

namespace FieldRecords

namespace Utf8

/-- The bytes of a text. -/
def ofText (s : String) : Bytes := s.toUTF8.toList

/-- The text with these bytes, if there is one. -/
def toText? (bs : Bytes) : Option String :=
  String.fromUTF8? ⟨bs.toArray⟩

/-- Bytes are listed one by one, behind those that are listed already. -/
theorem toList_loop (bs : ByteArray) (i : Nat) (listed : Bytes) :
    ByteArray.toList.loop bs i listed = listed.reverse ++ bs.data.toList.drop i := by
  fun_induction ByteArray.toList.loop bs i listed with
  | case1 i listed hi ih =>
    have hget : bs.get! i = bs.data[i] := getElem!_pos bs.data i hi
    have hdrop : bs.data.toList.drop i = bs.data.toList[i] :: bs.data.toList.drop (i + 1) :=
      List.drop_eq_getElem_cons hi
    rw [ih, List.reverse_cons, List.append_assoc, hdrop, hget]
    rfl
  | case2 i listed hi =>
    have hend : bs.data.toList.length ≤ i := Nat.not_lt.1 hi
    rw [List.drop_eq_nil_of_le hend, List.append_nil]

theorem ofText_eq (text : String) : ofText text = text.toUTF8.data.toList :=
  toList_loop text.toUTF8 0 []

/-- **The bytes of a text, and no others, are read as this text.** -/
theorem toText?_eq_some_iff {bs : Bytes} {text : String} :
    toText? bs = some text ↔ ofText text = bs := by
  rw [ofText_eq, toText?, String.fromUTF8?]
  constructor
  · intro h
    split at h
    · cases h
      rfl
    · cases h
  · rintro rfl
    exact dif_pos text.isValidUTF8

/-! ## Reading what may not be text -/

/-- How a sequence goes on after its first byte: the bits that the first byte holds, the range of
    the second byte, and how many bytes follow the second. -/
structure Lead where
  bits : Nat
  low : UInt8
  high : UInt8
  more : Nat

/-- What a first byte says about its sequence; `none` if no longer sequence starts with it. The
    narrower ranges exclude overlong forms, surrogates and numbers beyond U+10FFFF. -/
def lead? (b : UInt8) : Option Lead :=
  if b < 0xC2 then none
  else if b < 0xE0 then some ⟨b.toNat % 32, 0x80, 0xBF, 0⟩
  else if b = 0xE0 then some ⟨0, 0xA0, 0xBF, 1⟩
  else if b = 0xED then some ⟨13, 0x80, 0x9F, 1⟩
  else if b < 0xF0 then some ⟨b.toNat % 16, 0x80, 0xBF, 1⟩
  else if b = 0xF0 then some ⟨0, 0x90, 0xBF, 2⟩
  else if b < 0xF4 then some ⟨b.toNat % 8, 0x80, 0xBF, 2⟩
  else if b = 0xF4 then some ⟨4, 0x80, 0x8F, 2⟩
  else none

/-- Takes up to `more` following bytes into the number; says whether all were there, and what is
    left. -/
def follow : Nat → Nat → Bytes → Option Nat × Bytes
  | 0, n, bs => (some n, bs)
  | more + 1, n, b :: bs =>
    if 0x80 ≤ b ∧ b ≤ 0xBF then follow more (n * 64 + b.toNat % 64) bs else (none, b :: bs)
  | _ + 1, _, [] => (none, [])

/-- The character at the front, or the replacement character for the maximal piece that is no
    character, and what is left. -/
def nextChar (b : UInt8) (bs : Bytes) : Char × Bytes :=
  if b < 0x80 then (Char.ofNat b.toNat, bs)
  else
    match lead? b, bs with
    | some l, c :: rest =>
      if l.low ≤ c ∧ c ≤ l.high then
        match follow l.more (l.bits * 64 + c.toNat % 64) rest with
        | (some n, rest) => (Char.ofNat n, rest)
        | (none, rest) => ('\uFFFD', rest)
      else ('\uFFFD', bs)
    | _, _ => ('\uFFFD', bs)

/-- The characters of at most `steps` sequences. -/
def chars : Nat → Bytes → List Char
  | steps + 1, b :: bs =>
    let (c, rest) := nextChar b bs
    c :: chars steps rest
  | _, _ => []

/-- **The text of any bytes**, with U+FFFD for every maximal piece that is not text. -/
def toTextLossy (bs : Bytes) : String := String.ofList (chars bs.length bs)

end Utf8

end FieldRecords
