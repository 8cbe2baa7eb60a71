import FieldRecords.Proofs.Projecting
import FieldRecords.Proofs.Updates

/-!
# What a buffer held before does not matter

A merge or a projection writes a whole record into a buffer that somebody else may have used: it may
hold a longer record or a shorter one, or be left by a merge that was refused half-way. What is
written hangs on the limit of the buffer alone (`mergeInto_same`, `project_same`), and no merge
changes the limit (`limit_mergeInto`). So **a merger answers like a fresh buffer, whatever it was
used for before** (`merge_entry_points_agree`).

A lower limit refuses more and changes nothing else: a field that is granted under one limit is
granted under every limit that admits it (`Row.lay_under`).
-/

namespace FieldRecords

/-! ## 1. Edits that leave the same -/

/-- Two edits leave the same: the same outcome, and the same bytes under the same limit. Room does
    not count. -/
structure Edited.Same (a b : Edited) : Prop where
  outcome_eq : a.outcome = b.outcome
  bytes_eq : a.buffer.bytes = b.buffer.bytes
  limit_eq : a.buffer.limit = b.buffer.limit

/-- What holds the same list is the same. -/
theorem Edited.Holds.same {a b : Edited} {left : Row × Except CodecError Unit} (ha : a.Holds left)
    (hb : b.Holds left) : a.Same b where
  outcome_eq := ha.outcome.trans hb.outcome.symm
  bytes_eq := ha.buffer.written.eq_encode.trans hb.buffer.written.eq_encode.symm
  limit_eq := ha.buffer.limit_eq.trans hb.buffer.limit_eq.symm

/-- What a granted edit wrote, or why it was refused. -/
def Edited.answer (edited : Edited) : Except CodecError Bytes :=
  edited.outcome.map fun () => edited.buffer.bytes

theorem Edited.Same.answer_eq {a b : Edited} (h : a.Same b) : a.answer = b.answer := by
  rw [answer, answer, h.outcome_eq, h.bytes_eq]

section

variable {base : View} {out other : Buffer}

/-- **A merge hangs on the limit of the output alone.** -/
theorem mergeInto_same (hbase : 4 ≤ base.bytes.length) (update : View)
    (hlimit : out.limit = other.limit) :
    (mergeInto base update out).value.Same (mergeInto base update other).value :=
  (holds_mergeInto (r := ⟨other.limit, []⟩) hlimit hbase update).same
    (holds_mergeInto (r := ⟨other.limit, []⟩) rfl hbase update)

/-- **A projection hangs on the limit of the output alone.** -/
theorem project_same (v : View) (wanted : Selection) (order : ProjectionOrder)
    (hlimit : out.limit = other.limit) :
    (project v wanted order out).value.Same (project v wanted order other).value :=
  (holds_project (r := ⟨other.limit, []⟩) hlimit v wanted order).same
    (holds_project (r := ⟨other.limit, []⟩) rfl v wanted order)

/-- No merge changes the limit of its output. -/
theorem limit_mergeInto (hbase : 4 ≤ base.bytes.length) (update : View) (out : Buffer) :
    (mergeInto base update out).value.buffer.limit = out.limit := by
  have hbuffer := (holds_mergeInto (r := ⟨out.limit, []⟩) rfl hbase update).buffer
  rw [hbuffer.limit_eq]
  cases hlaid : Row.overlay ⟨out.limit, []⟩ base.contents update.contents with
  | ok s => rw [Row.overlay_granted hlaid]; rfl
  | error error => rfl

end

/-! ## 2. Lower and higher limits -/

namespace Row

variable {r s : Row} {limit : Nat}

/-- **What one limit grants, every limit that admits the field grants as well.** -/
theorem lay_under {f : Field} (hname : f.name.length ≤ limit) (hvalue : f.value.length ≤ limit)
    (h : r.lay f = .ok s) : lay ⟨limit, r.fields⟩ f = .ok ⟨limit, s.fields⟩ := by
  have hs := lay_granted h
  unfold lay at h ⊢
  split at h
  · rename_i hany
    rw [if_pos hany, if_neg (Nat.not_lt.2 hvalue), become_granted, hs]
  · rename_i hany
    obtain ⟨-, -, hcount, rfl⟩ := append_eq_ok.1 h
    rw [if_neg hany]
    exact append_eq_ok.2 ⟨hname, hvalue, hcount, rfl⟩

theorem layAll_under {update : List Field}
    (hshort : ∀ f ∈ update, f.name.length ≤ limit ∧ f.value.length ≤ limit)
    (h : (r.layAll update).2 = .ok ()) : (layAll ⟨limit, r.fields⟩ update).2 = .ok () := by
  unfold layAll at h ⊢
  induction update generalizing r with
  | nil => rfl
  | cons f update ih =>
    obtain ⟨hname, hvalue⟩ := hshort f List.mem_cons_self
    cases hf : r.lay f with
    | error error => rw [Answer.foldUntilRefused_cons_error hf] at h; cases h
    | ok s =>
      rw [Answer.foldUntilRefused_cons_ok hf] at h
      rw [Answer.foldUntilRefused_cons_ok (lay_under hname hvalue hf)]
      exact ih (fun g hg => hshort g (List.mem_cons_of_mem _ hg)) h

/-- A merge that one limit grants writes the same fields under every limit that admits those of the
    update. -/
theorem overlay_under {base update : Contents}
    (hshort : ∀ f ∈ update.fields, f.name.length ≤ limit ∧ f.value.length ≤ limit)
    (h : r.overlay base update = .ok s) :
    overlay ⟨limit, []⟩ base update = .ok ⟨limit, s.fields⟩ := by
  have hs := overlay_granted h
  obtain ⟨u, hbase, h⟩ := Answer.bind_eq_ok.1 h
  obtain ⟨v, hupdate, h⟩ := Answer.bind_eq_ok.1 h
  rw [become_granted] at h
  have hgranted := congrArg Prod.snd (whole_eq_ok.1 h)
  have hlaid : (layAll ⟨limit, base.fields⟩ update.fields).2 = .ok () :=
    layAll_under (r := { r with fields := base.fields }) hshort hgranted
  refine Answer.bind_eq_ok.2 ⟨u, hbase, Answer.bind_eq_ok.2 ⟨v, hupdate, ?_⟩⟩
  show whole (layAll ⟨limit, base.fields⟩ update.fields) = _
  rw [whole, hlaid, layAll_granted hlaid, hs]
  rfl

end Row

/-! ## 3. Mergers that were used before -/

namespace Merger

/-- The merger after merges of these pairs, granted or refused. -/
def mergeAll (m : Merger) (pairs : List (View × View)) : Merger :=
  pairs.foldl (fun m pair => (m.merge pair.1 pair.2).value.1) m

/-- **However a merger was used, its buffer has the limit it began with.** -/
theorem limit_mergeAll (m : Merger) {pairs : List (View × View)}
    (hpairs : ∀ pair ∈ pairs, 4 ≤ pair.1.bytes.length) :
    (m.mergeAll pairs).scratch.limit = m.scratch.limit := by
  induction pairs generalizing m with
  | nil => rfl
  | cons pair pairs ih =>
    have hmerge : (m.merge pair.1 pair.2).value.1.scratch.limit = m.scratch.limit :=
      limit_mergeInto (hpairs pair List.mem_cons_self) pair.2 m.scratch
    have hrest := ih (m.merge pair.1 pair.2).value.1
      fun other hother => hpairs other (List.mem_cons_of_mem _ hother)
    exact hrest.trans hmerge

/-- What a merger answers is what its buffer is left with. -/
theorem map_bytes_merge (m : Merger) (base update : View) :
    (m.merge base update).value.2.map View.bytes =
      (mergeInto base update m.scratch).value.answer := by
  show Except.map _ (Except.map _ (mergeInto base update m.scratch).value.outcome) = _
  rw [Edited.answer]
  cases (mergeInto base update m.scratch).value.outcome <;> rfl

end Merger

/-- A merge into a buffer of its own answers like a merge into any buffer without a limit of its
    own. -/
theorem map_bytes_merge {base : View} (hbase : 4 ≤ base.bytes.length) (update : View) {out : Buffer}
    (hlimit : out.limit = Record.maxLength) :
    (merge base update).answer.map Buffer.bytes = (mergeInto base update out).value.answer := by
  rw [(mergeInto_same hbase update hlimit :
    (mergeInto base update out).value.Same (mergeInto base update
      (Buffer.ofCapacity (base.bytes.length + update.bytes.length))).value).answer_eq, answer_merge,
    Edited.answer]
  cases (mergeInto base update
    (Buffer.ofCapacity (base.bytes.length + update.bytes.length))).value.outcome <;> rfl

/-- A merge that is granted under a limit is granted without one, and writes the same bytes. -/
theorem answer_mergeInto_under {base update : View} (hbase : 4 ≤ base.bytes.length)
    {out unlimited : Buffer} (hlimit : unlimited.limit = Record.maxLength) {bytes : Bytes}
    (h : (mergeInto base update out).value.answer = .ok bytes) :
    (mergeInto base update unlimited).value.answer = .ok bytes := by
  have hout := holds_mergeInto (r := ⟨out.limit, []⟩) rfl hbase update
  have hunlimited := holds_mergeInto (r := ⟨Record.maxLength, []⟩) hlimit hbase update
  obtain ⟨u, houtcome, rfl⟩ := Answer.map_eq_ok.1 h
  cases hlaid : Row.overlay ⟨out.limit, []⟩ base.contents update.contents with
  | error error =>
    rw [hlaid] at hout
    cases houtcome.symm.trans hout.outcome
  | ok s =>
    have hshort : ∀ f ∈ update.contents.fields, f.name.length ≤ Record.maxLength ∧
        f.value.length ≤ Record.maxLength := fun f hf => (View.fits_of_mem_contents hf).short
    rw [hlaid] at hout
    rw [Row.overlay_under hshort hlaid] at hunlimited
    refine Answer.map_eq_ok.2 ⟨(), hunlimited.outcome, ?_⟩
    exact hunlimited.buffer.written.eq_encode.trans hout.buffer.written.eq_encode.symm

/-- **All ways to merge agree, and nothing of earlier merges is left.** However a merger was used
    before, it answers with the bytes, or the error, of a merge into any buffer of the limit the
    merger began with; without a limit of its own, it answers like a merge into a buffer of its
    own; and whatever it grants under a limit, a merge into a buffer of its own grants with the same
    bytes. -/
theorem merge_entry_points_agree (merger : Merger) {earlier : List (View × View)}
    (hearlier : ∀ pair ∈ earlier, 4 ≤ pair.1.bytes.length) {base : View}
    (hbase : 4 ≤ base.bytes.length) (update : View) :
    let answer := ((merger.mergeAll earlier).merge base update).value.2.map View.bytes
    (∀ fresh : Buffer, fresh.limit = merger.scratch.limit →
      (mergeInto base update fresh).value.answer = answer) ∧
    (merger.scratch.limit = Record.maxLength →
      (merge base update).answer.map Buffer.bytes = answer) ∧
    ∀ bytes, answer = .ok bytes → (merge base update).answer.map Buffer.bytes = .ok bytes := by
  intro answer
  have hlimit := merger.limit_mergeAll hearlier
  have hanswer : answer = (mergeInto base update (merger.mergeAll earlier).scratch).value.answer :=
    (merger.mergeAll earlier).map_bytes_merge base update
  refine ⟨fun fresh hfresh => ?_, fun hunlimited => ?_, fun bytes hgranted => ?_⟩
  · rw [hanswer]
    exact (mergeInto_same hbase update (hfresh.trans hlimit.symm)).answer_eq
  · rw [hanswer]
    exact map_bytes_merge hbase update (hlimit.trans hunlimited)
  · rw [map_bytes_merge hbase update (rfl : Buffer.new.limit = Record.maxLength)]
    exact answer_mergeInto_under hbase rfl (hanswer.symm.trans hgranted)

/-- The merger admits values of three bytes. A merge that it granted left a longer record; one was
    refused for an update that breaks off, and one after its first field was laid; and then it
    answers like a buffer that was never used. -/
theorem merge_after_refused_merges :
    let row (value : Bytes) : View := ⟨Record.encode [⟨[97], value⟩, ⟨[98], [2, 2, 2]⟩]⟩
    let longer : View := ⟨Record.encode [⟨[99], [3, 3, 3]⟩, ⟨[100], [4, 4, 4]⟩]⟩
    let broken : View := ⟨[1, 0, 0, 0, 9]⟩
    let halfway : View := ⟨Record.encode [⟨[97], [1]⟩, ⟨[98], [5, 5, 5, 5]⟩]⟩
    let earlier := [(row [7], longer), (row [7], broken), (row [7], halfway)]
    let used := Merger.mergeAll ⟨⟨Record.emptyBytes, 3, 64⟩⟩ earlier
    let fresh : Buffer := ⟨[5], 3, 0⟩
    (∀ pair ∈ earlier, 4 ≤ pair.1.bytes.length) ∧
      (mergeInto (row [7, 7]) (row []) fresh).value.answer = .ok (row []).bytes ∧
      (used.merge (row [7, 7]) (row [])).value.2.map View.bytes = .ok (row []).bytes := by
  intro row longer broken halfway earlier used fresh
  have hearlier : ∀ pair ∈ earlier, 4 ≤ pair.1.bytes.length := by decide
  have hbase : 4 ≤ (row [7, 7]).bytes.length := by decide
  have hfresh : (mergeInto (row [7, 7]) (row []) fresh).value.answer = .ok (row []).bytes := by
    decide
  have hlimit : fresh.limit = 3 := rfl
  have hagree : (mergeInto (row [7, 7]) (row []) fresh).value.answer =
      (used.merge (row [7, 7]) (row [])).value.2.map View.bytes := by
    -- which records they are need not be looked at
    clear_value earlier row fresh
    exact (merge_entry_points_agree _ hearlier hbase (row [])).1 fresh hlimit
  exact ⟨hearlier, hfresh, hagree.symm.trans hfresh⟩

end FieldRecords
