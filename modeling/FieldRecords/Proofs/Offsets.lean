import FieldRecords.Proofs.Rejections

/-!
# Walking over bytes in place

A walk drops the bytes that it has read, and counts its offsets without a bound. Where records lie
in memory the bytes stay, every part of them is taken by its offsets, and an offset is a word of 64
bits. So there a sum can be too large for a word, and a part can lie outside of the bytes
(`OffsetFault`); a `Cursor` that comes to this has no answer at all.

**It never does**: over less than 2^63 bytes a cursor goes the way of the walk, step by step
(`Walk.Within.stepsInPlace`), and its spans tile the bytes from behind the count (`Span.Tiles`). An
entry takes eight bytes at least, so the bytes bound the steps, whatever the count declares
(`walks_stay_within_bytes`).
-/

namespace FieldRecords

/-! ## 1. Offsets in words -/

/-- How offsets go wrong. -/
inductive OffsetFault where
  /-- A sum does not fit a word. -/
  | overflow
  /-- The bytes do not have the part that is asked for. -/
  | outOfRange
deriving DecidableEq

namespace Offset

/-- The sum of two offsets, if it fits a word. -/
def plus (a b : UInt64) : Except OffsetFault UInt64 :=
  if a.toNat + b.toNat < 18446744073709551616 then .ok (a + b) else .error .overflow

/-- The bytes between two offsets, if they are there. -/
def slice (data : Bytes) (start stop : UInt64) : Except OffsetFault Bytes :=
  if start.toNat ≤ stop.toNat ∧ stop.toNat ≤ data.length then
    .ok (data.extract start.toNat stop.toNat)
  else
    .error .outOfRange

theorem toNat_ofNat {n : Nat} (h : n < 18446744073709551616) : (UInt64.ofNat n).toNat = n :=
  UInt64.toNat_ofNat_of_lt' h

theorem plus_ofNat {a b : Nat} (h : a + b < 18446744073709551616) :
    plus (UInt64.ofNat a) (UInt64.ofNat b) = .ok (UInt64.ofNat (a + b)) := by
  rw [plus, toNat_ofNat (by omega), toNat_ofNat (by omega), if_pos h, UInt64.ofNat_add]

theorem slice_ofNat {data : Bytes} {start stop : Nat} (hstart : start ≤ stop)
    (hstop : stop ≤ data.length) (hlength : data.length < 9223372036854775808) :
    slice data (UInt64.ofNat start) (UInt64.ofNat stop) = .ok (data.extract start stop) := by
  rw [slice, toNat_ofNat (by omega), toNat_ofNat (by omega), if_pos ⟨hstart, hstop⟩]

end Offset

/-! ## 2. Cursors -/

/-- Where the name and the value of an entry stand. -/
structure Span where
  nameStart : UInt64
  nameEnd : UInt64
  valueStart : UInt64
  valueEnd : UInt64
deriving DecidableEq

namespace Span

open Offset

/-- The length that stands at an offset; `none` if fewer than four bytes are left there. -/
def length? (data : Bytes) (start : UInt64) : Except OffsetFault (Option UInt64) := do
  let stop ← plus start 4
  if data.length < stop.toNat then
    return none
  else
    let digits ← slice data start stop
    return (Bytes.readU32? digits).map fun read => UInt64.ofNat read.1

/-- Where the part starts and ends whose length stands at an offset. It is refused for `reason` if
    it is cut off. -/
def part (data : Bytes) (start : UInt64) (reason : Malformed) :
    Except OffsetFault (Except CodecError (UInt64 × UInt64)) := do
  match ← length? data start with
  | none => return .error (.malformed start.toNat .truncatedLength)
  | some length =>
    let first ← plus start 4
    let stop ← plus first length
    if data.length < stop.toNat then
      return .error (.malformed first.toNat reason)
    else
      return .ok (first, stop)

/-- The span of the entry at an offset. -/
def decode (data : Bytes) (start : UInt64) : Except OffsetFault (Except CodecError Span) := do
  match ← part data start .truncatedName with
  | .error error => return .error error
  | .ok (nameStart, nameEnd) =>
    match ← part data nameEnd .truncatedValue with
    | .error error => return .error error
    | .ok (valueStart, valueEnd) => return .ok ⟨nameStart, nameEnd, valueStart, valueEnd⟩

end Span

/-- The state of a walk over bytes that stay where they are: the bytes, the offset of the next
    entry, how many declared entries are still to come, and whether the walk is over. -/
structure Cursor where
  data : Bytes
  offset : UInt64
  remaining : UInt64
  finished : Bool

namespace Cursor

/-- What one step of a cursor yields: a span together with the name and the value that stand there,
    or a fault, or nothing. -/
inductive Item where
  | field (span : Span) (name value : Bytes)
  | fault (error : CodecError)
  | done
deriving DecidableEq

/-- The span that a step yields, if it yields one. -/
def Item.span? : Item → Option Span
  | .field span _ _ => some span
  | _ => none

/-- The fault that a step meets, if it meets one. -/
def Item.fault? : Item → Option CodecError
  | .fault error => some error
  | _ => none

/-- A cursor in front of the first entry. -/
def ofBytes (data : Bytes) : Except OffsetFault Cursor := do
  match ← Span.length? data 0 with
  | some count => return ⟨data, 4, count, false⟩
  | none => .error .outOfRange

/-- One step. -/
def next (c : Cursor) : Except OffsetFault (Item × Cursor) :=
  if c.finished then
    return (.done, c)
  else if c.remaining = 0 then
    if c.offset.toNat = c.data.length then
      return (.done, { c with finished := true })
    else
      return (.fault (.malformed c.offset.toNat .trailingBytes), { c with finished := true })
  else do
    match ← Span.decode c.data c.offset with
    | .error error => return (.fault error, { c with finished := true })
    | .ok span =>
      let name ← Offset.slice c.data span.nameStart span.nameEnd
      let value ← Offset.slice c.data span.valueStart span.valueEnd
      return (.field span name value,
        { c with offset := span.valueEnd, remaining := c.remaining - 1 })

/-- What a cursor yields when it is stepped so many times. -/
def yields : Nat → Cursor → Except OffsetFault (List Item)
  | 0, _ => return []
  | n + 1, c => do
    let (item, c) ← c.next
    return item :: (← yields n c)

end Cursor

/-! ## 3. Reading at an offset -/

/-- The first four bytes are enough to read a number. -/
theorem Bytes.readU32?_take (bs : Bytes) :
    (readU32? (bs.take 4)).map (fun read => UInt64.ofNat read.1) =
      (readU32? bs).map fun read => UInt64.ofNat read.1 := by
  rcases bs with _ | ⟨a, _ | ⟨b, _ | ⟨c, _ | ⟨d, rest⟩⟩⟩⟩ <;> rfl

/-- What follows a part that stands at an offset. -/
theorem Bytes.drop_eq_append {bs part rest : Bytes} {start : Nat}
    (h : bs.drop start = part ++ rest) (hstart : start ≤ bs.length) :
    bs.drop (start + part.length) = rest ∧ start + part.length ≤ bs.length := by
  have hlength := congrArg List.length h
  rw [List.length_drop, List.length_append] at hlength
  refine ⟨?_, by omega⟩
  rw [← List.drop_drop, h, List.drop_left]

/-- A part that stands at an offset is taken by its offsets. -/
theorem Bytes.extract_of_drop {bs part rest : Bytes} {start : Nat}
    (h : bs.drop start = part ++ rest) : bs.extract start (start + part.length) = part := by
  rw [List.extract_eq_take_drop, h, Nat.add_sub_cancel_left, List.take_left]

namespace Entry

/-- A part with its length in front, and what follows it. The length stands at offset `start`, and
    the part is refused for `reason` if it is cut off. -/
def readPart (start : Nat) (reason : Malformed) (bs : Bytes) :
    Except CodecError (Bytes × Bytes) :=
  match Bytes.readU32? bs with
  | none => .error (.malformed start .truncatedLength)
  | some (length, bs) =>
    match Bytes.split? length bs with
    | none => .error (.malformed (start + 4) reason)
    | some parted => .ok parted

/-- **An entry is two such parts**, the name and the value. -/
theorem decode_eq_parts (start : Nat) (bs : Bytes) :
    decode start bs =
      match readPart start .truncatedName bs with
      | .error error => .error error
      | .ok (name, bs) =>
        match readPart (start + 4 + name.length) .truncatedValue bs with
        | .error error => .error error
        | .ok (value, rest) => .ok (⟨start, name, value⟩, rest) := by
  unfold decode readPart
  cases Bytes.readU32? bs with
  | none => rfl
  | some read =>
    obtain ⟨nameLength, bs⟩ := read
    dsimp only
    cases hname : Bytes.split? nameLength bs with
    | none => rfl
    | some parted =>
      obtain ⟨name, bs⟩ := parted
      obtain ⟨rfl, -⟩ := Bytes.split?_eq_some_iff.1 hname
      dsimp only
      cases Bytes.readU32? bs with
      | none => rfl
      | some read =>
        obtain ⟨valueLength, bs⟩ := read
        dsimp only
        cases Bytes.split? valueLength bs with
        | none => rfl
        | some parted => rfl

end Entry

namespace Span

open Offset

variable {data : Bytes} {start : Nat}

/-- **The length at an offset is the number that is read there.** -/
theorem length?_ofNat (hstart : start ≤ data.length)
    (hlength : data.length < 9223372036854775808) :
    length? data (UInt64.ofNat start) =
      .ok ((Bytes.readU32? (data.drop start)).map fun read => UInt64.ofNat read.1) := by
  have hstop : plus (UInt64.ofNat start) 4 = .ok (UInt64.ofNat (start + 4)) :=
    plus_ofNat (b := 4) (by omega)
  show (plus (UInt64.ofNat start) 4 >>= fun stop => _) = _
  rw [hstop]
  show ite _ _ _ = _
  rw [toNat_ofNat (by omega)]
  split
  · rename_i hshort
    have hnone : Bytes.readU32? (data.drop start) = none := by
      rw [Bytes.readU32?_eq_none_iff, List.length_drop]
      omega
    rw [hnone]
    rfl
  · rename_i hlong
    rw [slice_ofNat (Nat.le_add_right start 4) (Nat.le_of_not_lt hlong) hlength,
      ← Bytes.readU32?_take, List.extract_eq_take_drop, Nat.add_sub_cancel_left]
    rfl

/-- **The part at an offset is the part that is read there.** -/
theorem part_ofNat (hstart : start ≤ data.length)
    (hlength : data.length < 9223372036854775808) (reason : Malformed) :
    part data (UInt64.ofNat start) reason =
      .ok ((Entry.readPart start reason (data.drop start)).map fun parted =>
        (UInt64.ofNat (start + 4), UInt64.ofNat (start + 4 + parted.1.length))) := by
  unfold part Entry.readPart
  rw [length?_ofNat hstart hlength]
  cases hread : Bytes.readU32? (data.drop start) with
  | none =>
    rw [toNat_ofNat (by omega)]
    rfl
  | some read =>
    obtain ⟨length, rest⟩ := read
    obtain ⟨hfits, hdrop⟩ := Bytes.eq_u32_of_readU32? hread
    obtain ⟨hrest, hfirst⟩ := Bytes.drop_eq_append hdrop hstart
    rw [Bytes.length_u32] at hrest hfirst
    have hplus : plus (UInt64.ofNat start) 4 = .ok (UInt64.ofNat (start + 4)) :=
      plus_ofNat (b := 4) (by omega)
    have hstop : plus (UInt64.ofNat (start + 4)) (UInt64.ofNat length) =
        .ok (UInt64.ofNat (start + 4 + length)) := plus_ofNat (by omega)
    have hrestLength : rest.length = data.length - (start + 4) := by
      rw [← hrest, List.length_drop]
    show (plus (UInt64.ofNat start) 4 >>= fun first => _) = _
    rw [hplus]
    show (plus (UInt64.ofNat (start + 4)) (UInt64.ofNat length) >>= fun stop => _) = _
    rw [hstop]
    show ite _ _ _ = _
    rw [toNat_ofNat (by omega), toNat_ofNat (by omega)]
    dsimp only
    cases hsplit : Bytes.split? length rest with
    | none =>
      have hshort := Bytes.split?_eq_none_iff.1 hsplit
      rw [if_pos (by omega)]
      rfl
    | some parted =>
      obtain ⟨hpart, hparted⟩ := Bytes.split?_eq_some_iff.1 hsplit
      have hlong := congrArg List.length hparted
      rw [List.length_append] at hlong
      rw [if_neg (by omega), ← hpart]
      rfl

end Span

/-! ## 4. Entries where they stand -/

/-- The offsets of an entry, as words. -/
def Entry.span (e : Entry) : Span :=
  ⟨UInt64.ofNat e.nameStart, UInt64.ofNat e.nameEnd, UInt64.ofNat e.valueStart,
    UInt64.ofNat e.valueEnd⟩

/-- **The entry stands in the bytes**: its two lengths and its two parts are found at its offsets,
    and it ends within the bytes. -/
structure Entry.StandsIn (e : Entry) (data : Bytes) : Prop where
  valueEnd_le : e.valueEnd ≤ data.length
  nameLength : (Bytes.readU32? (data.drop e.start)).map Prod.fst = some e.name.length
  name_eq : data.extract e.nameStart e.nameEnd = e.name
  valueLength : (Bytes.readU32? (data.drop e.nameEnd)).map Prod.fst = some e.value.length
  value_eq : data.extract e.valueStart e.valueEnd = e.value

namespace Entry

/-- What is read as a part was written as one. -/
theorem eq_append_of_readPart {start : Nat} {reason : Malformed} {bs part rest : Bytes}
    (h : readPart start reason bs = .ok (part, rest)) :
    part.length < 4294967296 ∧ bs = Bytes.u32 part.length ++ (part ++ rest) := by
  unfold readPart at h
  split at h
  · cases h
  rename_i length behind hread
  split at h
  · cases h
  rename_i parted hsplit
  cases h
  obtain ⟨hfits, rfl⟩ := Bytes.eq_u32_of_readU32? hread
  obtain ⟨rfl, rfl⟩ := Bytes.split?_eq_some_iff.1 hsplit
  exact ⟨hfits, rfl⟩

/-- **An entry that is read at an offset stands there**, and what follows it stands behind it. -/
theorem standsIn_of_decode {data rest : Bytes} {start : Nat} {e : Entry}
    (hstart : start ≤ data.length) (h : decode start (data.drop start) = .ok (e, rest)) :
    e.start = start ∧ e.StandsIn data ∧ data.drop e.valueEnd = rest := by
  obtain ⟨rfl, hfits, hbytes⟩ := eq_encode_of_decode h
  rw [Field.encode, List.append_assoc, List.append_assoc] at hbytes
  obtain ⟨hname, hnameStart⟩ := Bytes.drop_eq_append hbytes hstart
  obtain ⟨hvalueLength, hnameEnd⟩ := Bytes.drop_eq_append hname hnameStart
  rw [List.append_assoc] at hvalueLength
  obtain ⟨hvalue, hvalueStart⟩ := Bytes.drop_eq_append hvalueLength hnameEnd
  obtain ⟨hrest, hvalueEnd⟩ := Bytes.drop_eq_append hvalue hvalueStart
  refine ⟨rfl, ⟨hvalueEnd, ?_, Bytes.extract_of_drop hname, ?_, Bytes.extract_of_drop hvalue⟩,
    hrest⟩
  · rw [hbytes, Bytes.readU32?_u32 hfits.1]
    rfl
  · have hread := Bytes.readU32?_u32 hfits.2 (e.field.value ++ rest)
    rw [← hvalueLength] at hread
    exact congrArg (Option.map Prod.fst) hread

/-- The parts of an entry are there for whoever takes them. -/
theorem slice_span {data : Bytes} {e : Entry} (h : e.StandsIn data)
    (hlength : data.length < 9223372036854775808) :
    Offset.slice data e.span.nameStart e.span.nameEnd = .ok e.name ∧
      Offset.slice data e.span.valueStart e.span.valueEnd = .ok e.value := by
  have hvalueEnd := h.valueEnd_le
  have hnameEnd : e.nameEnd ≤ e.valueEnd :=
    Nat.le_trans (Nat.le_add_right _ 4) (Nat.le_add_right _ e.value.length)
  constructor
  · rw [← h.name_eq]
    exact Offset.slice_ofNat (Nat.le_add_right _ _) (Nat.le_trans hnameEnd hvalueEnd) hlength
  · rw [← h.value_eq]
    exact Offset.slice_ofNat (Nat.le_add_right _ _) hvalueEnd hlength

/-- The offsets of an entry within the bytes are words. -/
theorem toNat_span {data : Bytes} {e : Entry} (h : e.StandsIn data)
    (hlength : data.length < 9223372036854775808) :
    e.span.nameStart.toNat = e.nameStart ∧ e.span.nameEnd.toNat = e.nameEnd ∧
      e.span.valueStart.toNat = e.valueStart ∧ e.span.valueEnd.toNat = e.valueEnd := by
  have hvalue : e.valueStart + e.value.length ≤ data.length := h.valueEnd_le
  have hname : e.valueStart = e.nameStart + e.name.length + 4 := rfl
  have hnameEnd : e.nameEnd = e.nameStart + e.name.length := rfl
  have hvalueEnd : e.valueEnd = e.valueStart + e.value.length := rfl
  refine ⟨Offset.toNat_ofNat ?_, Offset.toNat_ofNat ?_, Offset.toNat_ofNat ?_,
    Offset.toNat_ofNat ?_⟩
  all_goals omega

end Entry

/-- **The span at an offset is that of the entry that is read there.** -/
theorem Span.decode_ofNat {data : Bytes} {start : Nat} (hstart : start ≤ data.length)
    (hlength : data.length < 9223372036854775808) :
    decode data (UInt64.ofNat start) =
      .ok ((Entry.decode start (data.drop start)).map fun decoded => decoded.1.span) := by
  rw [Entry.decode_eq_parts, decode, part_ofNat hstart hlength]
  cases hname : Entry.readPart start .truncatedName (data.drop start) with
  | error error => rfl
  | ok read =>
    obtain ⟨name, behind⟩ := read
    obtain ⟨-, hbytes⟩ := Entry.eq_append_of_readPart hname
    obtain ⟨hdrop, hnameStart⟩ := Bytes.drop_eq_append hbytes hstart
    obtain ⟨rfl, hnameEnd⟩ := Bytes.drop_eq_append hdrop hnameStart
    rw [Bytes.length_u32] at hnameEnd ⊢
    show (part data (UInt64.ofNat (start + 4 + name.length)) .truncatedValue >>= _) = _
    rw [part_ofNat hnameEnd hlength]
    dsimp only
    cases Entry.readPart (start + 4 + name.length) .truncatedValue
      (data.drop (start + 4 + name.length)) with
    | error error => rfl
    | ok read => rfl

namespace Cursor

variable {c : Cursor}

/-- A declared entry that cannot be read. -/
theorem next_of_refused (hf : c.finished = false) (hr : c.remaining ≠ 0) {error : CodecError}
    (h : Span.decode c.data c.offset = .ok (.error error)) :
    c.next = .ok (.fault error, { c with finished := true }) := by
  rw [next, hf, if_neg Bool.false_ne_true, if_neg hr, h]
  rfl

/-- A declared entry whose parts are there. -/
theorem next_of_decoded (hf : c.finished = false) (hr : c.remaining ≠ 0) {span : Span}
    {name value : Bytes} (h : Span.decode c.data c.offset = .ok (.ok span))
    (hname : Offset.slice c.data span.nameStart span.nameEnd = .ok name)
    (hvalue : Offset.slice c.data span.valueStart span.valueEnd = .ok value) :
    c.next = .ok (.field span name value,
      ⟨c.data, span.valueEnd, c.remaining - 1, false⟩) := by
  rw [next, hf, if_neg Bool.false_ne_true, if_neg hr, h]
  show (Offset.slice c.data span.nameStart span.nameEnd >>= _) = _
  rw [hname]
  show (Offset.slice c.data span.valueStart span.valueEnd >>= _) = _
  rw [hvalue]
  rfl

end Cursor

/-! ## 5. Walks in place -/

/-- What a step yields, as a cursor yields it. -/
def Walk.Step.inPlace : Walk.Step → Cursor.Item
  | .entry e => .field e.span e.name e.value
  | .fault error => .fault error
  | .done => .done

/-- What a step from an offset yields has its place in the bytes: an entry stands at the offset, and
    a fault is met within the bytes or right behind them. -/
def Walk.Step.StandsIn (data : Bytes) (start : Nat) : Walk.Step → Prop
  | .entry e => e.start = start ∧ e.StandsIn data
  | .fault error => ∃ offset reason, error = .malformed offset reason ∧ offset ≤ data.length
  | .done => True

/-- **The walk is within the bytes**: what it has still to read are the bytes from its offset on. -/
structure Walk.Within (w : Walk) (data : Bytes) : Prop where
  offset_le : w.offset ≤ data.length
  rest_eq : w.rest = data.drop w.offset
  remaining_lt : w.remaining < 4294967296

namespace Walk

variable {data : Bytes} {w : Walk}

/-- The same walk over bytes that stay where they are. -/
def inPlace (w : Walk) (data : Bytes) : Cursor :=
  ⟨data, UInt64.ofNat w.offset, UInt64.ofNat w.remaining, w.finished⟩

/-- What is left to read is empty where the bytes end. -/
theorem isEmpty_drop {offset : Nat} (h : offset ≤ data.length) :
    (data.drop offset).isEmpty = decide (offset = data.length) := by
  rw [Bool.eq_iff_iff, List.isEmpty_iff, List.drop_eq_nil_iff, decide_eq_true_iff]
  omega

/-- **A step in place is the step of the walk**: no sum is too large for a word, every part that is
    taken is there, and what the step yields has its place in the bytes. -/
structure StepsInPlace (w : Walk) (data : Bytes) : Prop where
  next_eq : (w.inPlace data).next = .ok (w.next.value.1.inPlace, w.next.value.2.inPlace data)
  within : w.next.value.2.Within data
  stands : w.next.value.1.StandsIn data w.offset
  advances : ∀ e, w.next.value.1 = .entry e →
    w.next.value.2.offset = e.valueEnd ∧ w.next.value.2.remaining + 1 = w.remaining

/-- A walk that ends, and the cursor with it. -/
theorem Within.steps_over (h : w.Within data) (step : Step) (hstands : step.StandsIn data w.offset)
    (hnone : ∀ e, step ≠ .entry e) (hnext : w.next.value = (step, { w with finished := true }))
    (hcursor : (w.inPlace data).next =
      .ok (step.inPlace, { w with finished := true }.inPlace data)) :
    w.StepsInPlace data := by
  constructor
  case next_eq => rw [hnext, hcursor]
  case within => rw [hnext]; exact ⟨h.offset_le, h.rest_eq, h.remaining_lt⟩
  case stands => rw [hnext]; exact hstands
  case advances => rw [hnext]; exact fun e he => absurd he (hnone e)

/-- Behind the declared entries. -/
theorem Within.steps_behind (h : w.Within data) (hlength : data.length < 9223372036854775808)
    (hf : w.finished = false) (hr : w.remaining = 0) : w.StepsInPlace data := by
  have hoffset := h.offset_le
  have hword : (w.inPlace data).offset.toNat = w.offset := Offset.toNat_ofNat (by omega)
  have hempty : w.rest.isEmpty = decide (w.offset = data.length) := by
    rw [h.rest_eq, isEmpty_drop hoffset]
  have hcursor : (w.inPlace data).next =
      if w.offset = data.length then .ok (.done, { w with finished := true }.inPlace data)
      else .ok (.fault (.malformed w.offset .trailingBytes),
        { w with finished := true }.inPlace data) := by
    have hfinished : (w.inPlace data).finished = false := hf
    have hremaining : (w.inPlace data).remaining = 0 := congrArg UInt64.ofNat hr
    simp only [Cursor.next, hfinished, hremaining, hword, Bool.false_eq_true, if_false, if_true]
    rw [← hremaining]
    rfl
  by_cases hend : w.offset = data.length
  · have hnext : w.next.value = (.done, { w with finished := true }) := by
      simp [next, hf, hr, hempty, hend]
    rw [if_pos hend] at hcursor
    exact h.steps_over .done trivial (fun e he => by cases he) hnext hcursor
  · have hnext : w.next.value =
        (.fault (.malformed w.offset .trailingBytes), { w with finished := true }) := by
      simp [next, fail, hf, hr, hempty, hend]
    rw [if_neg hend] at hcursor
    exact h.steps_over (.fault _) ⟨_, _, rfl, hoffset⟩ (fun e he => by cases he) hnext hcursor

/-- A declared entry. -/
theorem Within.steps_declared (h : w.Within data) (hlength : data.length < 9223372036854775808)
    (hf : w.finished = false) {remaining : Nat} (hr : w.remaining = remaining + 1) :
    w.StepsInPlace data := by
  have hoffset := h.offset_le
  have hremaining := h.remaining_lt
  have hleft : (w.inPlace data).remaining ≠ 0 := by
    intro hzero
    have hword := (Offset.toNat_ofNat (by omega)).symm.trans (congrArg UInt64.toNat hzero)
    rw [hr] at hword
    cases hword
  have hdecode : Span.decode (w.inPlace data).data (w.inPlace data).offset =
      .ok ((Entry.decode w.offset (data.drop w.offset)).map fun decoded => decoded.1.span) :=
    Span.decode_ofNat hoffset hlength
  cases hd : Entry.decode w.offset (data.drop w.offset) with
  | error error =>
    obtain ⟨offset, reason, rfl, -, hfault⟩ := Entry.truncated_of_decode hd
    rw [List.length_drop] at hfault
    rw [hd] at hdecode
    refine h.steps_over (.fault _) ⟨offset, reason, rfl, by omega⟩ (fun e he => by cases he) ?_
      (Cursor.next_of_refused hf hleft hdecode)
    simp [next, fail, hf, hr, h.rest_eq, hd]
  | ok decoded =>
    obtain ⟨e, rest⟩ := decoded
    obtain ⟨hstart, hstands, hrest⟩ := Entry.standsIn_of_decode hoffset hd
    have hend := hstands.valueEnd_le
    have hnext : w.next.value = (.entry e, ⟨rest, e.valueEnd, remaining, false⟩) := by
      simp only [next, hf, hr, h.rest_eq, hd]
      rfl
    rw [hd] at hdecode
    obtain ⟨hname, hvalue⟩ := Entry.slice_span hstands hlength
    have hcursor := Cursor.next_of_decoded hf hleft hdecode hname hvalue
    have hone : UInt64.ofNat w.remaining - 1 = UInt64.ofNat remaining := by
      rw [hr, UInt64.ofNat_add]
      exact UInt64.add_sub_cancel _ _
    constructor
    case next_eq =>
      rw [hcursor, hnext]
      show Except.ok (_, Cursor.mk data e.span.valueEnd (UInt64.ofNat w.remaining - 1) false) = _
      rw [hone]
      rfl
    case within => rw [hnext]; exact ⟨hend, hrest.symm, by dsimp only; omega⟩
    case stands => rw [hnext]; exact ⟨hstart, hstands⟩
    case advances =>
      rw [hnext]
      intro e he
      cases he
      exact ⟨rfl, hr.symm⟩

/-- **Every step of a walk within the bytes goes alike in place.** -/
theorem Within.stepsInPlace (h : w.Within data) (hlength : data.length < 9223372036854775808) :
    w.StepsInPlace data := by
  cases hf : w.finished with
  | true =>
    have hsame : { w with finished := true } = w := by rw [← hf]
    refine h.steps_over .done trivial (fun e he => by cases he) ?_ ?_
    · rw [hsame, next_of_finished hf]
      rfl
    · rw [hsame]
      exact if_pos hf
  | false =>
    cases hr : w.remaining with
    | zero => exact h.steps_behind hlength hf hr
    | succ remaining => exact h.steps_declared hlength hf hr

/-- **A run in place is the run of the walk.** -/
theorem Within.yields_inPlace (h : w.Within data) (hlength : data.length < 9223372036854775808)
    (n : Nat) : (w.inPlace data).yields n = .ok ((w.yields n).map Step.inPlace) := by
  induction n generalizing w with
  | zero => rfl
  | succ n ih =>
    have hstep := h.stepsInPlace hlength
    rw [Cursor.yields, hstep.next_eq]
    show (Cursor.yields n (w.next.value.2.inPlace data) >>= _) = _
    rw [ih hstep.within]
    rfl

/-- **The entries of a run**: none if the first step yields none, or its entry and those of the run
    behind it. -/
theorem yielded_cases (n : Nat) (w : Walk) :
    w.yielded (n + 1) = [] ∨ ∃ e, w.next.value.1 = .entry e ∧
      w.yielded (n + 1) = e :: w.next.value.2.yielded n := by
  cases hstep : w.next.value.1 with
  | entry e =>
    refine .inr ⟨e, rfl, ?_⟩
    rw [yielded, yields, hstep]
    rfl
  | fault error =>
    have hover := finished_next (w := w) (by simp [hstep])
    rw [yielded, yields, hstep, yields_of_finished hover]
    exact .inl (List.filterMap_eq_nil_iff.2 (by simp [Step.entry?]))
  | done =>
    have hover := finished_next (w := w) (by simp [hstep])
    rw [yielded, yields, hstep, yields_of_finished hover]
    exact .inl (List.filterMap_eq_nil_iff.2 (by simp [Step.entry?]))

/-- **Every fault is met within the bytes or right behind them.** -/
theorem Within.bounded_of_mem_faults (h : w.Within data)
    (hlength : data.length < 9223372036854775808) {n : Nat} {error : CodecError}
    (hmem : error ∈ w.faults n) :
    ∃ offset reason, error = .malformed offset reason ∧ offset ≤ data.length := by
  induction n generalizing w with
  | zero => exact absurd hmem List.not_mem_nil
  | succ n ih =>
    have hstep := h.stepsInPlace hlength
    rw [faults_succ] at hmem
    rcases List.mem_append.1 hmem with hfirst | hrest
    · have hstands := hstep.stands
      cases hyielded : w.next.value.1 with
      | entry e => rw [hyielded] at hfirst; cases hfirst
      | done => rw [hyielded] at hfirst; cases hfirst
      | fault met =>
        rw [hyielded] at hfirst hstands
        rw [List.mem_singleton.1 hfirst]
        exact hstands
    · exact ih hstep.within hrest

end Walk

/-! ## 6. Tiles -/

/-- **The span stands at an offset**: its two lengths are read off there and behind its name, and it
    ends within the bytes. -/
structure Span.StandsAt (span : Span) (data : Bytes) (start : Nat) : Prop where
  nameStart_eq : span.nameStart.toNat = start + 4
  name_le : span.nameStart.toNat ≤ span.nameEnd.toNat
  valueStart_eq : span.valueStart.toNat = span.nameEnd.toNat + 4
  value_le : span.valueStart.toNat ≤ span.valueEnd.toNat
  valueEnd_le : span.valueEnd.toNat ≤ data.length
  nameLength : (Bytes.readU32? (data.drop start)).map Prod.fst =
    some (span.nameEnd.toNat - span.nameStart.toNat)
  valueLength : (Bytes.readU32? (data.drop span.nameEnd.toNat)).map Prod.fst =
    some (span.valueEnd.toNat - span.valueStart.toNat)

/-- **The spans tile the bytes from an offset on**: each stands where the one before it ends. -/
def Span.Tiles (data : Bytes) : Nat → List Span → Prop
  | _, [] => True
  | start, span :: spans => span.StandsAt data start ∧ Tiles data span.valueEnd.toNat spans

/-- An entry that stands in the bytes has a span that does. -/
theorem Entry.StandsIn.span {data : Bytes} {e : Entry} (h : e.StandsIn data)
    (hlength : data.length < 9223372036854775808) : e.span.StandsAt data e.start := by
  obtain ⟨hnameStart, hnameEnd, hvalueStart, hvalueEnd⟩ := toNat_span h hlength
  have hname : e.nameEnd = e.nameStart + e.name.length := rfl
  have hvalue : e.valueEnd = e.valueStart + e.value.length := rfl
  constructor
  case nameStart_eq => exact hnameStart
  case name_le => omega
  case valueStart_eq => rw [hvalueStart, hnameEnd]; rfl
  case value_le => omega
  case valueEnd_le => exact hvalueEnd ▸ h.valueEnd_le
  case nameLength => rw [h.nameLength, hnameEnd, hnameStart, hname, Nat.add_sub_cancel_left]
  case valueLength =>
    rw [hnameEnd, h.valueLength, hvalueEnd, hvalueStart, hvalue, Nat.add_sub_cancel_left]

/-- **The entries of a walk tile the bytes from its offset on.** -/
theorem Walk.Within.tiles {data : Bytes} {w : Walk} (h : w.Within data)
    (hlength : data.length < 9223372036854775808) (n : Nat) :
    Span.Tiles data w.offset ((w.yielded n).map Entry.span) := by
  induction n generalizing w with
  | zero => trivial
  | succ n ih =>
    have hstep := h.stepsInPlace hlength
    obtain hnone | ⟨e, he, hyielded⟩ := w.yielded_cases n
    · rw [hnone]
      trivial
    · have hstands := hstep.stands
      rw [he] at hstands
      obtain ⟨hstart, hstands⟩ := hstands
      have hrest := ih hstep.within
      rw [(hstep.advances e he).1] at hrest
      rw [hyielded, ← hstart]
      refine ⟨hstands.span hlength, ?_⟩
      show Span.Tiles data e.span.valueEnd.toNat _
      rw [(Entry.toNat_span hstands hlength).2.2.2]
      exact hrest

/-! ## 7. Records in place -/

section

variable {data : Bytes}

theorem View.within_walk (hheader : 4 ≤ data.length) : (View.mk data).walk.Within data :=
  ⟨hheader, rfl, Nat.lt_succ_of_le (View.mk data).length_le_maxLength⟩

/-- A cursor over a record starts where the walk does. -/
theorem Cursor.ofBytes_eq (hheader : 4 ≤ data.length)
    (hlength : data.length < 9223372036854775808) :
    ofBytes data = .ok ((View.mk data).walk.inPlace data) := by
  have hcount : Span.length? data 0 =
      .ok ((Bytes.readU32? data).map fun read => UInt64.ofNat read.1) :=
    Span.length?_ofNat (Nat.zero_le _) hlength
  rw [ofBytes, hcount]
  cases hread : Bytes.readU32? data with
  | none =>
    have := Bytes.readU32?_eq_none_iff.1 hread
    omega
  | some read =>
    have hv : (View.mk data).length = read.1 := by rw [View.length, hread]
    rw [Walk.inPlace, View.walk, hv]
    rfl

/-- The spans and the faults of a run in place are those of the run. -/
theorem Walk.filterMap_inPlace (steps : List Walk.Step) :
    (steps.map Step.inPlace).filterMap Cursor.Item.span? =
        (steps.filterMap Step.entry?).map Entry.span ∧
      (steps.map Step.inPlace).filterMap Cursor.Item.fault? = steps.filterMap Step.fault? := by
  induction steps with
  | nil => exact ⟨rfl, rfl⟩
  | cons step steps ih =>
    obtain ⟨hspans, hfaults⟩ := ih
    cases step with
    | entry e => exact ⟨congrArg (e.span :: ·) hspans, hfaults⟩
    | fault error => exact ⟨hspans, congrArg (error :: ·) hfaults⟩
    | done => exact ⟨hspans, hfaults⟩

/-- **No more entries are yielded than are declared, and than there are bytes for**, however often
    the walk is stepped. -/
theorem View.length_yielded_walk_le (v : View) (n : Nat) :
    (v.walk.yielded n).length ≤ v.expectedFields := by
  rw [Walk.yielded_eq_take, entries_walk, List.length_take, Record.length_entries]
  exact Nat.le_trans (Nat.min_le_right _ _) v.length_contents_le_expectedFields

/-- **Behind as many steps as there are entries, and one more, a walk yields nothing.** -/
theorem Walk.eq_done_of_mem_drop {w : Walk} {most : Nat} (h : w.entries.length ≤ most) {n : Nat}
    {step : Step} (hstep : step ∈ (w.yields n).drop (most + 1)) : step = .done := by
  induction n generalizing w most with
  | zero => exact absurd hstep List.not_mem_nil
  | succ n ih =>
    rw [yields, List.drop_succ_cons] at hstep
    have hover : (∀ e, w.next.value.1 ≠ .entry e) → step = .done := by
      intro hnone
      have hrest := List.mem_of_mem_drop hstep
      rw [yields_of_finished (finished_next hnone)] at hrest
      exact List.eq_of_mem_replicate hrest
    obtain ⟨-, w', hnext⟩ | ⟨error, -, hnext⟩ | ⟨e, w', -, -, -, hentries, hnext⟩ := w.next_cases
    · exact hover (by simp [hnext])
    · exact hover (by simp [hnext, fail])
    · rw [hentries, List.length_cons] at h
      obtain ⟨fewer, rfl⟩ := Nat.exists_eq_add_of_lt h
      rw [hnext] at hstep
      have hfewer : w'.entries.length ≤ w'.entries.length + fewer := Nat.le_add_right _ _
      exact ih hfewer hstep

end

/-- **A walk over a record stays within the bytes and ends with them.** Over less than 2^63 bytes
    that have a count, stepping in place never comes to a sum that is too large for a word, or to a
    part that is not there, and it yields what the walk yields. Its spans tile the bytes from behind
    the count, so there are no more of them than are declared, and no more than one for every eight
    bytes. At most one fault is met, within the bytes or right behind them; and after so many steps
    and one more there is nothing left to yield, whatever the count declares. -/
theorem walks_stay_within_bytes {data : Bytes} (hheader : 4 ≤ data.length)
    (hlength : data.length < 9223372036854775808) (n : Nat) :
    let w := (View.mk data).walk
    let most := min (View.mk data).length ((data.length - 4) / 8)
    ∃ items, (Cursor.ofBytes data >>= Cursor.yields n) = .ok items ∧
      items = (w.yields n).map Walk.Step.inPlace ∧
      Span.Tiles data 4 (items.filterMap Cursor.Item.span?) ∧
      (items.filterMap Cursor.Item.span?).length ≤ most ∧
      (items.filterMap Cursor.Item.fault?).length ≤ 1 ∧
      (∀ error ∈ items.filterMap Cursor.Item.fault?,
        ∃ offset reason, error = .malformed offset reason ∧ offset ≤ data.length) ∧
      ∀ item ∈ items.drop (most + 1), item = .done := by
  intro w most
  have hwithin : w.Within data := View.within_walk hheader
  obtain ⟨hspans, hfaults⟩ := Walk.filterMap_inPlace (w.yields n)
  refine ⟨_, ?_, rfl, ?_, ?_, ?_, ?_, ?_⟩
  · rw [Cursor.ofBytes_eq hheader hlength]
    exact hwithin.yields_inPlace hlength n
  · rw [hspans]
    exact hwithin.tiles hlength n
  · rw [hspans, List.length_map]
    exact View.length_yielded_walk_le _ n
  · rw [hfaults]
    exact w.length_faults_le n
  · rw [hfaults]
    exact fun error => hwithin.bounded_of_mem_faults hlength
  · intro item hitem
    have hentries : w.entries.length ≤ most := by
      rw [View.entries_walk, Record.length_entries]
      exact (View.mk data).length_contents_le_expectedFields
    rw [← List.map_drop] at hitem
    obtain ⟨step, hstep, rfl⟩ := List.mem_map.1 hitem
    rw [Walk.eq_done_of_mem_drop hentries hstep]
    rfl

/-- A count that declares 2^32 - 1 fields, a field, a field with neither a name nor a value, and a
    length that is cut off. Twenty bytes behind the count have room for two fields, so the third
    step is the last one to yield anything. -/
theorem walk_under_largest_count :
    let data : Bytes :=
      [255, 255, 255, 255, 1, 0, 0, 0, 97, 1, 0, 0, 0, 7, 0, 0, 0, 0, 0, 0, 0, 0, 3, 0]
    4 ≤ data.length ∧ data.length < 9223372036854775808 ∧ (View.mk data).length = 4294967295 ∧
      (Cursor.ofBytes data >>= Cursor.yields 5) =
        .ok [.field ⟨8, 9, 13, 14⟩ [97] [7], .field ⟨18, 18, 22, 22⟩ [] [],
          .fault (.malformed 22 .truncatedLength), .done, .done] ∧
      Span.Tiles data 4 [⟨8, 9, 13, 14⟩, ⟨18, 18, 22, 22⟩] := by
  intro data
  have hheader : 4 ≤ data.length := by decide
  have hlength : data.length < 9223372036854775808 := by decide
  obtain ⟨items, hrun, hitems, htiles, -⟩ := walks_stay_within_bytes hheader hlength 5
  have hfive : ((View.mk data).walk.yields 5).map Walk.Step.inPlace =
      [.field ⟨8, 9, 13, 14⟩ [97] [7], .field ⟨18, 18, 22, 22⟩ [] [],
        .fault (.malformed 22 .truncatedLength), .done, .done] := by decide
  rw [hitems, hfive] at hrun htiles
  exact ⟨hheader, hlength, by decide, hrun, htiles⟩

end FieldRecords
