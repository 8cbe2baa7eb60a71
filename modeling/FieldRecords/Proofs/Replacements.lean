import FieldRecords.Proofs.Lookups
import FieldRecords.Proofs.Sessions

/-!
# Values replaced where they stand

To give another value to a name, the entry is looked up and the value is exchanged in place. A value
of the same length is written over; otherwise the old one is cut out, what follows moves, and the
length that stands in front of the value is written anew, at an offset that was found before
anything moved. **Either way the bytes are the written form of the list with one value exchanged**
(`Record.encode_overwrite`, `Record.encode_splice`), so only the entries behind it move, all by the
same number of bytes (`Record.entries_with_value`), and all bytes before the length and behind the
value stay the same (`Record.Written.with_value`).

`replaced_values_keep_their_place` says so of every record, name and value.
-/

namespace FieldRecords

/-! ## 1. Entries that move -/

/-- The same entry, after so many bytes in front of it were taken out and so many put in. -/
def Entry.moved (taken put : Nat) (e : Entry) : Entry :=
  { e with start := e.start + put - taken }

namespace Record

/-- The entries of a list in two pieces. -/
theorem entries_append (start : Nat) (before after : List Field) :
    entries start (before ++ after) =
      entries start before ++ entries (start + (before.flatMap Field.encode).length) after := by
  induction before generalizing start with
  | nil => rfl
  | cons f before ih =>
    rw [List.cons_append, entries, entries, ih, List.flatMap_cons, List.length_append,
      Nat.add_assoc, List.cons_append]

/-- **Entries that start elsewhere are the same entries, moved.** -/
theorem entries_moved {start taken put : Nat} (h : taken ≤ start) (fields : List Field) :
    entries (start + put - taken) fields = (entries start fields).map (Entry.moved taken put) := by
  induction fields generalizing start with
  | nil => rfl
  | cons f fields ih =>
    have hnext : start + put - taken + f.encode.length = start + f.encode.length + put - taken := by
      omega
    rw [entries, entries, hnext, ih (by omega), List.map_cons]
    rfl

/-- **With another value, only the entries behind it move**, and all by the same number of bytes. -/
theorem entries_with_value (before after : List Field) (f : Field) (value : Bytes) :
    let start := 4 + (before.flatMap Field.encode).length
    entries 4 (before ++ ⟨f.name, value⟩ :: after) =
      entries 4 before ++ ⟨start, f.name, value⟩ ::
        (entries (start + f.encode.length) after).map
          (Entry.moved f.value.length value.length) := by
  intro start
  have hend : start + (⟨f.name, value⟩ : Field).encode.length =
      start + f.encode.length + value.length - f.value.length := by
    simp only [Field.length_encode, Field.size]
    omega
  have hbehind : f.value.length ≤ start + f.encode.length := by
    simp only [Field.length_encode, Field.size]
    omega
  rw [entries_append, entries, hend, entries_moved hbehind]

/-- **The bytes before the length of a value, and those behind the value.** -/
theorem encode_parted (before after : List Field) (f : Field) :
    let e : Entry := ⟨4 + (before.flatMap Field.encode).length, f.name, f.value⟩
    let bytes := encode (before ++ f :: after)
    bytes.take e.nameEnd = encodeUpTo (before ++ f :: after).length before f.name ∧
      bytes.drop e.valueEnd = after.flatMap Field.encode := by
  intro e bytes
  obtain ⟨hnameEnd, hvalueStart⟩ :=
    Entry.offsets_behind (before ++ f :: after).length before f
  have hvalueEnd : e.valueEnd = e.valueStart + f.value.length := rfl
  have hbytes : bytes = _ := encode_around before after f
  rw [hvalueEnd, hnameEnd, hvalueStart, hbytes]
  generalize encodeUpTo (before ++ f :: after).length before f.name = upTo
  refine ⟨List.take_left, ?_⟩
  have hfront : (upTo ++ (Bytes.u32 f.value.length ++ f.value)).length =
      upTo.length + 4 + f.value.length := by
    simp only [List.length_append, Bytes.length_u32]
    omega
  rw [← List.append_assoc, ← List.append_assoc, List.append_assoc upTo]
  exact List.drop_left' hfront

/-- **Records that differ in one value.** The bytes of one come from those of the other by cutting
    out the value and writing its length anew, or by writing over it if the lengths are the same;
    the bytes before the length of the value and those behind the value are the same. -/
theorem Written.with_value {bytes changed : Bytes} {before after : List Field} {f : Field}
    {value : Bytes} (h : Written bytes (before ++ f :: after))
    (hchanged : Written changed (before ++ ⟨f.name, value⟩ :: after)) :
    let e : Entry := ⟨4 + (before.flatMap Field.encode).length, f.name, f.value⟩
    changed = (bytes.splice e.valueStart e.valueEnd value).overwrite e.nameEnd
        (Bytes.u32 value.length) ∧
      (f.value.length = value.length → changed = bytes.overwrite e.valueStart value) ∧
      changed.take e.nameEnd = bytes.take e.nameEnd ∧
      changed.drop (e.valueStart + value.length) = bytes.drop e.valueEnd := by
  intro e
  obtain ⟨hfront, hbehind⟩ := encode_parted before after f
  obtain ⟨hnewFront, hnewBehind⟩ := encode_parted before after ⟨f.name, value⟩
  have hcount : (before ++ ⟨f.name, value⟩ :: after).length = (before ++ f :: after).length := by
    simp only [List.length_append, List.length_cons]
  rw [hcount] at hnewFront
  rw [h.eq_encode, hchanged.eq_encode]
  exact ⟨(encode_splice before after f value).symm,
    fun hsame => (encode_overwrite before after f hsame).symm,
    hnewFront.trans hfront.symm, hnewBehind.trans hbehind.symm⟩

/-! ## 2. The first field of a name -/

/-- Behind fields of other names, the first field of a name is found by its place in the list. -/
theorem findIdx_of_first {before : List Field} {f : Field} {name : Bytes}
    (hbefore : ∀ g ∈ before, g.name ≠ name) (hf : f.name = name) (after : List Field) :
    (before ++ f :: after).findIdx (fun g => g.name == name) = before.length := by
  have hothers : before.findIdx (fun g => g.name == name) = before.length :=
    List.findIdx_eq_length_of_false fun g hg => beq_false_of_ne (hbefore g hg)
  rw [List.findIdx_append, hothers, if_neg (Nat.lt_irrefl _), List.findIdx_cons, beq_iff_eq.2 hf]
  exact Nat.zero_add _

/-- A walk over a written form meets the entries of its fields. -/
theorem Written.yielded_walk {v : View} {fields : List Field} (h : Written v.bytes fields) :
    v.walk.yielded (v.length + 1) = entries 4 fields := by
  have hmet := FieldRecords.yielded_walk v
  rwa [View.contents_of_written h] at hmet

/-- What a walk meets before one field, at it and behind it. -/
theorem Written.yielded_at {v : View} {before after : List Field} {f : Field}
    (h : Written v.bytes (before ++ f :: after)) :
    let start := 4 + (before.flatMap Field.encode).length
    let met := v.walk.yielded (v.length + 1)
    met.take before.length = entries 4 before ∧
      met[before.length]? = some ⟨start, f.name, f.value⟩ ∧
      met.drop (before.length + 1) = entries (start + f.encode.length) after := by
  intro start met
  have hmet : met = entries 4 before ++ ⟨start, f.name, f.value⟩ ::
      entries (start + f.encode.length) after :=
    h.yielded_walk.trans (entries_append 4 before (f :: after))
  rw [hmet, ← length_entries 4 before]
  refine ⟨List.take_left, ?_, ?_⟩
  · rw [List.getElem?_append_right (Nat.le_refl _), Nat.sub_self, List.getElem?_cons_zero]
  · rw [← List.drop_drop, List.drop_left, List.drop_succ_cons, List.drop_zero]

end Record

/-! ## 3. Replacing a value -/

namespace Buffer

variable {b : Buffer} {before after : List Field} {f : Field} {value : Bytes}

/-- A value that the limit does not admit is refused, and the buffer is kept. -/
theorem replaceValue_refused (h : b.limit < value.length) (e : Entry) :
    b.orKeep (b.replaceValue e value).answer =
      ⟨b, .error (.fieldTooLarge value.length b.limit)⟩ := by
  rw [replaceValue, if_pos h]
  rfl

/-- **A value that the limit admits is exchanged**, in one way or the other. -/
theorem replaceValue_granted (h : Record.Written b.bytes (before ++ f :: after))
    (hlimit : b.limit ≤ Record.maxLength) (hvalue : value.length ≤ b.limit) :
    let e : Entry := ⟨4 + (before.flatMap Field.encode).length, f.name, f.value⟩
    ∃ changed, b.orKeep (b.replaceValue e value).answer = ⟨changed, .ok ()⟩ ∧
      changed.limit = b.limit ∧
      Record.Written changed.bytes (before ++ ⟨f.name, value⟩ :: after) := by
  intro e
  have hholds : b.Holds ⟨b.limit, before ++ f :: after⟩ := ⟨rfl, h⟩
  have hreplaced := agree_replaceValue hholds rfl
    (Nat.lt_succ_of_le (Nat.le_trans hvalue hlimit))
  rw [if_neg (Nat.not_lt.2 hvalue)] at hreplaced
  obtain ⟨changed, hanswer, hchanged⟩ := hreplaced.of_granted
  exact ⟨changed, congrArg b.orKeep hanswer, hchanged.limit_eq, hchanged.written⟩

end Buffer

/-- **A value is replaced where it stands, and nothing else changes.** In a record the first entry
    of a name is found, at the place of its field in the list. Another value for it is refused
    exactly if it is longer than the limit, and the buffer is kept. Otherwise the bytes are the
    written form of the list with that one value exchanged, whether the value is written over or cut
    out and replaced; the two ways leave the same bytes where both can be gone. The count stays, and
    so do all bytes up to the length of the value and all bytes behind it. The same entries are met
    at the same places, except that those behind the value are moved by the difference of the
    lengths. -/
theorem replaced_values_keep_their_place {b : Buffer} {fields : List Field}
    (h : Record.Written b.bytes fields) (hlimit : b.limit ≤ Record.maxLength) {name : Bytes}
    (hname : ∃ f ∈ fields, f.name = name) (value : Bytes) :
    let j := fields.findIdx fun f => f.name == name
    let met := b.view.walk.yielded (b.length + 1)
    ∃ e, b.view.locate? name = pure (some e) ∧ met[j]? = some e ∧
      let edited := b.orKeep (b.replaceValue e value).answer
      let changed := edited.buffer
      (b.limit < value.length →
        edited = ⟨b, .error (.fieldTooLarge value.length b.limit)⟩) ∧
      (value.length ≤ b.limit →
        edited.outcome = .ok () ∧ changed.limit = b.limit ∧
        Record.Written changed.bytes (fields.set j ⟨name, value⟩) ∧
        changed.bytes = (b.bytes.splice e.valueStart e.valueEnd value).overwrite e.nameEnd
          (Bytes.u32 value.length) ∧
        (e.value.length = value.length →
          changed.bytes = b.bytes.overwrite e.valueStart value) ∧
        changed.length = b.length ∧
        changed.bytes.take e.nameEnd = b.bytes.take e.nameEnd ∧
        changed.bytes.drop (e.valueStart + value.length) = b.bytes.drop e.valueEnd ∧
        changed.view.walk.yielded (changed.length + 1) =
          met.take j ++ ⟨e.start, name, value⟩ ::
            (met.drop (j + 1)).map (Entry.moved e.value.length value.length)) := by
  intro j met
  obtain ⟨habsent, -⟩ | ⟨before, f, after, rfl, hf, hbefore, hfound⟩ :=
    Record.find?_entries 4 fields name
  · obtain ⟨f, hmem, hf⟩ := hname
    exact absurd hf (habsent f hmem)
  subst hf
  have hj : j = before.length := Record.findIdx_of_first hbefore rfl after
  clear_value j
  subst hj
  obtain ⟨hmetFront, hmetAt, hmetBehind⟩ :
      met.take before.length = _ ∧ met[before.length]? = _ ∧ met.drop (before.length + 1) = _ :=
    Record.Written.yielded_at (v := b.view) h
  refine ⟨⟨4 + (before.flatMap Field.encode).length, f.name, f.value⟩, ?_, hmetAt, fun hlong => ?_,
    fun hshort => ?_⟩
  · rw [View.locate?_eq_search, View.contents_of_written h, View.search, hfound]
  · exact Buffer.replaceValue_refused hlong _
  · have hset : (before ++ f :: after).set before.length ⟨f.name, value⟩ =
        before ++ ⟨f.name, value⟩ :: after := by
      rw [List.set_append_right _ _ (Nat.le_refl _), Nat.sub_self, List.set_cons_zero]
    obtain ⟨changed, hedited, hchangedLimit, hwritten⟩ :=
      Buffer.replaceValue_granted h hlimit hshort
    have hlength : changed.length = b.length := by
      calc changed.length
        _ = (before ++ ⟨f.name, value⟩ :: after).length := View.length_of_written hwritten
        _ = (before ++ f :: after).length := by simp only [List.length_append, List.length_cons]
        _ = b.length := (View.length_of_written h).symm
    obtain ⟨hspliced, hpatched, hfront, hbehind⟩ := h.with_value hwritten
    simp only [hedited, hset]
    refine ⟨trivial, hchangedLimit, hwritten, hspliced, hpatched, hlength, hfront, hbehind, ?_⟩
    rw [hmetFront, hmetBehind]
    exact hwritten.yielded_walk.trans (Record.entries_with_value before after f value)

/-- Three fields, the last two of one name. The value in the middle is emptied, and the last entry
    moves by its two bytes. -/
theorem middle_value_emptied :
    let fields : List Field := [⟨[97], [1]⟩, ⟨[98], [2, 3]⟩, ⟨[98], [4]⟩]
    let b : Buffer := ⟨Record.encode fields, 3, 64⟩
    ∃ e, b.view.locate? [98] = pure (some e) ∧
      (b.orKeep (b.replaceValue e []).answer).buffer.bytes =
        Record.encode [⟨[97], [1]⟩, ⟨[98], []⟩, ⟨[98], [4]⟩] := by
  intro fields b
  have hlimit : b.limit ≤ Record.maxLength := by decide
  have hname : ∃ f ∈ fields, f.name = [98] := by decide
  obtain ⟨e, hfound, -, -, hgranted⟩ :=
    replaced_values_keep_their_place (Record.written_encode (by decide)) hlimit hname []
  exact ⟨e, hfound, (hgranted (by decide)).2.2.1.eq_encode⟩

end FieldRecords
