import FieldRecords.Proofs.Verdicts

/-!
# Records that are cut off or go on

A record says itself where it ends: the count says how many fields follow, and every length how many
bytes. So no written form is the front of another one (`Record.Written.eq_nil_of_append`), and who
walks over a record notices both changes of its length:

* **more bytes behind it are met after all its fields**, where it ends;
* **if bytes are missing, the walk meets the fields that are still whole**, wherever the cut falls,
  and then something that runs past the end (`Contents.read_cut`).

`cuts_and_tails_are_noticed` says so of every record, every tail and every cut.
-/

namespace FieldRecords

/-! ## 1. The end of a walk -/

/-- **The walk yields these entries, then meets the fault once, and then nothing more.** -/
def Walk.YieldsThen (w : Walk) (es : List Entry) (error : CodecError) : Prop :=
  ∀ n, w.yields (es.length + 1 + n) =
    es.map .entry ++ .fault error :: List.replicate n .done

/-- A walk ends with the fault of its contents. -/
theorem Walk.yieldsThen_of_fault {w : Walk} {error : CodecError}
    (h : w.contents.fault = some error) : w.YieldsThen w.entries error := by
  intro n
  rw [Walk.yields_eq, Walk.ending, h]

/-! ## 2. Fields that are cut off -/

/-- **No written field is the front of another one**: equal bytes start with the same field. -/
theorem Field.encode_prefix_free {f g : Field} (hf : f.Fits) (hg : g.Fits) {rest rest' : Bytes}
    (h : f.encode ++ rest = g.encode ++ rest') : f = g ∧ rest = rest' := by
  have hdecode := Entry.decode_encode hf 0 rest
  rw [h, Entry.decode_encode hg 0 rest'] at hdecode
  cases f
  cases g
  cases hdecode
  exact ⟨rfl, rfl⟩

/-- An entry ends behind the start of the list it is in. -/
theorem Record.lt_valueEnd_of_mem {e : Entry} {start : Nat} {fields : List Field}
    (h : e ∈ Record.entries start fields) : start < e.valueEnd := by
  induction fields generalizing start with
  | nil => cases h
  | cons f fields ih =>
    rcases List.mem_cons.1 h with rfl | h
    · simp only [Entry.valueEnd, Entry.valueStart, Entry.nameEnd, Entry.nameStart]
      omega
    · exact Nat.lt_of_le_of_lt (Nat.le_add_right start _) (ih h)

/-- A field cannot be read if some of its bytes are missing. -/
theorem Entry.truncated_of_cut {f : Field} (hf : f.Fits) {front cut rest : Bytes}
    (h : front ++ cut = f.encode ++ rest) (hshort : front.length < f.encode.length) (start : Nat) :
    ∃ offset reason, decode start front = .error (.malformed offset reason) ∧
      reason.isTruncated ∧ offset ≤ start + front.length := by
  cases hd : decode start front with
  | error error =>
    obtain ⟨offset, reason, rfl, hreason, hoffset⟩ := truncated_of_decode hd
    exact ⟨offset, reason, rfl, hreason, hoffset⟩
  | ok decoded =>
    -- a field that is read would be the field itself, which is longer than all that is there
    obtain ⟨e, behind⟩ := decoded
    obtain ⟨-, he, rfl⟩ := eq_encode_of_decode hd
    rw [List.append_assoc] at h
    obtain ⟨rfl, -⟩ := Field.encode_prefix_free he hf h
    rw [List.length_append] at hshort
    omega

/-- **Of fields that are cut off, those are read that lie wholly before the cut**, and then a fault
    is met, at the cut or before it. -/
theorem Contents.read_cut {fields : List Field} (hfits : ∀ f ∈ fields, f.Fits) (start : Nat)
    {front cut : Bytes} (hcut : cut ≠ []) (h : front ++ cut = fields.flatMap Field.encode) :
    Record.entries start (read fields.length start front).fields =
        (Record.entries start fields).filter (fun e => e.valueEnd ≤ start + front.length) ∧
      ∃ offset reason, (read fields.length start front).fault = some (.malformed offset reason) ∧
        reason.isTruncated ∧ offset ≤ start + front.length := by
  induction fields generalizing start front with
  | nil => exact absurd (List.append_eq_nil_iff.1 h).2 hcut
  | cons f fields ih =>
    have hf := hfits f List.mem_cons_self
    have hend : (⟨start, f.name, f.value⟩ : Entry).valueEnd = start + f.encode.length :=
      Entry.valueEnd_eq _
    rw [List.flatMap_cons] at h
    rw [List.length_cons, read]
    rcases Nat.lt_or_ge front.length f.encode.length with hshort | hlong
    · -- the cut is within the first field, and all others are behind it
      obtain ⟨offset, reason, hd, hreason, hoffset⟩ := Entry.truncated_of_cut hf h hshort start
      rw [hd]
      refine ⟨(List.filter_eq_nil_iff.2 fun e he => ?_).symm, offset, reason, rfl, hreason, hoffset⟩
      rw [decide_eq_true_eq, Nat.not_le]
      rcases List.mem_cons.1 he with rfl | he
      · rw [hend]
        omega
      · have := Record.lt_valueEnd_of_mem he
        omega
    · -- the first field is whole, and the cut is behind it
      obtain ⟨front, rfl⟩ : f.encode <+: front :=
        List.prefix_of_prefix_length_le (List.prefix_append _ _) (h ▸ List.prefix_append _ _) hlong
      rw [List.append_assoc] at h
      obtain ⟨hread, offset, reason, hfault, hreason, hoffset⟩ :=
        ih (fun g hg => hfits g (List.mem_cons_of_mem _ hg)) (start + f.encode.length)
          (List.append_cancel_left h)
      have hlength : start + f.encode.length + front.length =
          start + (f.encode ++ front).length := by
        rw [List.length_append, Nat.add_assoc]
      rw [hlength] at hread hoffset
      have hinside : start + f.encode.length ≤ start + (f.encode ++ front).length := by
        rw [← hlength]
        exact Nat.le_add_right _ _
      rw [Entry.decode_encode hf]
      refine ⟨?_, offset, reason, ?_, hreason, hoffset⟩
      · simp only [hend, cons, Entry.field, Record.entries, hread, List.filter_cons, hinside,
          decide_true, if_true]
      · simp only [hend, cons, hfault]

/-! ## 3. Records that go on, and records that are cut off -/

section

variable {bytes : Bytes} {fields : List Field}

/-- **Behind a written form, the first byte too many is met.** -/
theorem View.contents_of_written_append (h : Record.Written bytes fields) {tail : Bytes}
    (htail : tail ≠ []) :
    (View.mk (bytes ++ tail)).contents =
      ⟨fields, some (.malformed bytes.length .trailingBytes)⟩ := by
  have hrest : Contents.read 0 bytes.length tail =
      ⟨[], some (.malformed bytes.length .trailingBytes)⟩ := by
    rw [Contents.read, if_neg (by simpa using htail)]
  have hread := Contents.read_encode_append h.fits.2 0 4 tail
  rw [Record.length_flatMap_encode, ← h.length_eq, hrest] at hread
  rw [h.eq_encode, Record.encode, List.append_assoc, contents_u32_append h.fits.1]
  rw [h.eq_encode, Record.encode] at hread
  simpa using hread

/-- **No written form is the front of another one.** -/
theorem Record.Written.eq_nil_of_append (h : Record.Written bytes fields) {tail : Bytes}
    {others : List Field} (hothers : Record.Written (bytes ++ tail) others) : tail = [] := by
  cases tail with
  | nil => rfl
  | cons b tail =>
    have hcontents := View.contents_of_written_append h (List.cons_ne_nil b tail)
    rw [View.contents_of_written hothers] at hcontents
    cases hcontents

/-- **Of a record that is cut off behind the count, the fields before the cut are held**, and what
    is missing is the fault. -/
theorem View.contents_of_cut (h : Record.Written bytes fields) {front cut : Bytes}
    (hbytes : front ++ cut = bytes) (hcut : cut ≠ []) (hheader : 4 ≤ front.length) :
    Record.entries 4 (View.mk front).contents.fields =
        (Record.entries 4 fields).filter (fun e => e.valueEnd ≤ front.length) ∧
      ∃ offset reason, (View.mk front).contents.fault = some (.malformed offset reason) ∧
        reason.isTruncated ∧ offset ≤ front.length := by
  rw [h.eq_encode, Record.encode] at hbytes
  obtain ⟨front, rfl⟩ : Bytes.u32 fields.length <+: front :=
    List.prefix_of_prefix_length_le (List.prefix_append _ _) (hbytes ▸ List.prefix_append _ _)
      hheader
  rw [List.append_assoc] at hbytes
  rw [contents_u32_append h.fits.1, List.length_append, Bytes.length_u32]
  exact Contents.read_cut h.fits.2 4 hcut (List.append_cancel_left hbytes)

end

/-- **A record that goes on or is cut off never goes unnoticed.** With more bytes behind it, a walk
    yields all its fields and then meets the first byte too many, and what is there is the written
    form of nothing. Cut off before the count is whole, it is no record to start with; cut off
    anywhere else, a walk yields just the fields that lie wholly before the cut, in order, and then
    once meets a length, a name or a value that is cut off, at the cut or before it. -/
theorem cuts_and_tails_are_noticed {bytes : Bytes} {fields : List Field}
    (h : Record.Written bytes fields) :
    (∀ tail, tail ≠ [] →
      (View.ofBytes (bytes ++ tail)).answer = .ok ⟨bytes ++ tail⟩ ∧
      (View.mk (bytes ++ tail)).walk.YieldsThen (Record.entries 4 fields)
        (.malformed bytes.length .trailingBytes) ∧
      ∀ others, ¬ Record.Written (bytes ++ tail) others) ∧
    ∀ front cut, front ++ cut = bytes → cut ≠ [] →
      (front.length < 4 →
        (View.ofBytes front).answer = .error (.malformed front.length .missingHeader)) ∧
      (4 ≤ front.length →
        (View.ofBytes front).answer = .ok ⟨front⟩ ∧
        ∃ offset reason, reason.isTruncated ∧ offset ≤ front.length ∧
          (View.mk front).walk.YieldsThen
            ((Record.entries 4 fields).filter fun e => e.valueEnd ≤ front.length)
            (.malformed offset reason)) := by
  have hheader := h.header
  refine ⟨fun tail htail => ⟨?_, ?_, ?_⟩, fun front cut hbytes hcut => ⟨fun hshort => ?_,
    fun hlong => ⟨?_, ?_⟩⟩⟩
  · rw [View.answer_ofBytes, if_neg (by rw [List.length_append]; omega)]
  · have hcontents := View.contents_of_written_append h htail
    have hyields := Walk.yieldsThen_of_fault (w := (View.mk (bytes ++ tail)).walk)
      (congrArg Contents.fault hcontents)
    rwa [View.entries_walk, hcontents] at hyields
  · exact fun others hothers => htail (h.eq_nil_of_append hothers)
  · rw [View.answer_ofBytes, if_pos hshort]
  · rw [View.answer_ofBytes, if_neg (Nat.not_lt.2 hlong)]
  · obtain ⟨hfields, offset, reason, hfault, hreason, hoffset⟩ :=
      View.contents_of_cut h hbytes hcut hlong
    refine ⟨offset, reason, hreason, hoffset, ?_⟩
    have hyields := Walk.yieldsThen_of_fault (w := (View.mk front).walk) hfault
    rwa [View.entries_walk, hfields] at hyields

/-- Three fields, one of them with neither a name nor a value: with a byte behind them, cut within
    the count, cut right behind the empty field, and without the last byte. -/
theorem record_with_empty_field_cut :
    let fields : List Field := [⟨[97], [7, 7]⟩, ⟨[], []⟩, ⟨[98], [8]⟩]
    let bytes := Record.encode fields
    Record.Written bytes fields ∧
      (View.mk (bytes ++ [0])).walk.YieldsThen (Record.entries 4 fields)
        (.malformed 33 .trailingBytes) ∧
      (View.ofBytes (bytes.take 3)).answer = .error (.malformed 3 .missingHeader) ∧
      ∀ length ∈ [23, 32], ∃ offset reason, reason.isTruncated ∧ offset ≤ length ∧
        (View.mk (bytes.take length)).walk.YieldsThen [⟨4, [97], [7, 7]⟩, ⟨15, [], []⟩]
          (.malformed offset reason) := by
  intro fields bytes
  have hwritten : Record.Written bytes fields := Record.written_encode (by decide)
  obtain ⟨htails, hcuts⟩ := cuts_and_tails_are_noticed hwritten
  have hcut := fun n => hcuts (bytes.take n) (bytes.drop n) (List.take_append_drop n bytes)
  refine ⟨hwritten, (htails [0] (by decide)).2.1, (hcut 3 (by decide)).1 (by decide), ?_⟩
  intro length hlength
  obtain rfl | rfl : length = 23 ∨ length = 32 := by simpa using hlength
  · exact ((hcut 23 (by decide)).2 (by decide)).2
  · exact ((hcut 32 (by decide)).2 (by decide)).2

end FieldRecords
