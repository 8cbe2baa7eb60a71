import FieldRecords.Proofs.Projecting
import FieldRecords.Proofs.Updates

/-!
# Projecting before or after an update

A projection in stored order keeps fields by their names, and an update gives values to names, so
the two can be done in either order. On lists that is a law of `List.filter` and `Record.overlay`
(`Record.filter_overlay`): a field that is not wanted makes no difference to the others, whichever
of several fields of its name it is.

**Projecting a merged row gives the same bytes as merging the projections**
(`projecting_distributes_over_merging`). In asked order there is no such law: there the names that
are asked for say where a field stands, and in the result of a merge the row does.
-/

namespace FieldRecords

/-! ## 1. Lists -/

namespace Record

/-- A field that is passed over may be put or not, and another one before or after the choice. -/
theorem filter_put (p : Bytes → Bool) (row : List Field) (f : Field) :
    (put row f).filter (fun g => p g.name) =
      if p f.name then put (row.filter fun g => p g.name) f else row.filter fun g => p g.name := by
  induction row with
  | nil => cases hf : p f.name <;> simp [put, hf]
  | cons g row ih =>
    by_cases hname : g.name = f.name
    · cases hf : p f.name <;> simp [put, hname, hf]
    · rw [put, if_neg hname]
      cases hg : p g.name with
      | true =>
        simp only [List.filter_cons, hg, if_true, ih, put, if_neg hname]
        split <;> rfl
      | false => simp only [List.filter_cons, hg, Bool.false_eq_true, if_false, ih]

/-- **Choosing fields by their names distributes over laying fields over fields.** -/
theorem filter_overlay (p : Bytes → Bool) (row update : List Field) :
    (overlay row update).filter (fun g => p g.name) =
      overlay (row.filter fun g => p g.name) (update.filter fun g => p g.name) := by
  induction update generalizing row with
  | nil => rfl
  | cons f update ih =>
    rw [overlay_cons, ih, filter_put, List.filter_cons]
    cases hf : p f.name with
    | true => rfl
    | false => rfl

/-- What a projection in stored order keeps of an updated row. -/
theorem kept_overlay (wanted : Selection) (row update : List Field) :
    kept (overlay row update) wanted .source =
      overlay (kept row wanted .source) (kept update wanted .source) :=
  filter_overlay wanted.wants row update

end Record

/-! ## 2. Records -/

section

variable {v base update : View} {fields row changes : List Field}

/-- **A record is projected into a buffer of its own**, whatever is wanted. -/
theorem agree_projectToBuffer (hv : Record.Written v.bytes fields) (wanted : Selection)
    (order : ProjectionOrder) :
    Agree (fun b fields => Record.Written b.bytes fields) (projectToBuffer v wanted order).answer
      (.ok (Record.kept fields wanted order)) := by
  have hproject := holds_project_of_written hv wanted order
    (rfl : (Buffer.ofCapacity v.bytes.length).limit = _)
  unfold projectToBuffer
  rw [Checked.answer_liftM_bind, hproject.outcome]
  exact .ok hproject.buffer.written

/-- An update and then a projection. -/
theorem agree_merge_project (hbase : Record.Written base.bytes row)
    (hupdate : Record.Written update.bytes changes) (wanted : Selection) (order : ProjectionOrder) :
    Agree (fun b fields => Record.Written b.bytes fields)
      (merge base update >>= fun merged => projectToBuffer merged.view wanted order).answer
      ((Record.merged row changes).map fun row => Record.kept row wanted order) := by
  rw [Checked.answer_bind]
  exact (agree_merge hbase hupdate).bind fun _ _ hmerged =>
    agree_projectToBuffer hmerged wanted order

/-- Two projections, and then one laid over the other. -/
theorem agree_project_merge (hbase : Record.Written base.bytes row)
    (hupdate : Record.Written update.bytes changes) (wanted : Selection) (order : ProjectionOrder) :
    Agree (fun b fields => Record.Written b.bytes fields)
      (projectToBuffer base wanted order >>= fun keptBase =>
        projectToBuffer update wanted order >>= fun keptUpdate =>
          merge keptBase.view keptUpdate.view).answer
      (Record.merged (Record.kept row wanted order) (Record.kept changes wanted order)) := by
  have hmerge : ∀ (keptBase : Buffer) (kept : List Field), Record.Written keptBase.bytes kept →
      Agree (fun b fields => Record.Written b.bytes fields)
        (projectToBuffer update wanted order >>= fun keptUpdate =>
          merge keptBase.view keptUpdate.view).answer
        (Record.merged kept (Record.kept changes wanted order)) := by
    intro keptBase kept hkeptBase
    rw [Checked.answer_bind]
    exact (agree_projectToBuffer hupdate wanted order).bind (g := Record.merged kept)
      fun _ _ hkeptUpdate => agree_merge hkeptBase hkeptUpdate
  rw [Checked.answer_bind]
  exact (agree_projectToBuffer hbase wanted order).bind
    (g := fun kept => Record.merged kept (Record.kept changes wanted order)) hmerge

end

/-- **Projecting in stored order distributes over merging**, with names repeated in either record as
    often as they like, whatever is wanted. The projection of the merged row has the bytes of the
    merge of the two projections: the written form of the wanted fields of the overlay. There is a
    merged row unless it would have more fields than a record can have. -/
theorem projecting_distributes_over_merging {base update : View} {row changes : List Field}
    (hbase : Record.Written base.bytes row) (hupdate : Record.Written update.bytes changes)
    (wanted : Selection) :
    let mergedFirst : Checked Buffer := do
      let merged ← merge base update
      projectToBuffer merged.view wanted .source
    let projectedFirst : Checked Buffer := do
      let keptBase ← projectToBuffer base wanted .source
      let keptUpdate ← projectToBuffer update wanted .source
      merge keptBase.view keptUpdate.view
    ((Record.overlay row changes).length ≤ Record.maxLength →
      mergedFirst.answer.map Buffer.bytes =
          .ok (Record.encode (Record.kept (Record.overlay row changes) wanted .source)) ∧
        projectedFirst.answer.map Buffer.bytes = mergedFirst.answer.map Buffer.bytes) ∧
    (Record.maxLength < (Record.overlay row changes).length →
      (merge base update).answer = .error .tooManyFields) := by
  intro mergedFirst projectedFirst
  have hmergedFirst : mergedFirst.answer.map Buffer.bytes = _ :=
    map_bytes_of_agree (agree_merge_project hbase hupdate wanted .source)
  have hprojectedFirst : projectedFirst.answer.map Buffer.bytes = _ :=
    map_bytes_of_agree (agree_project_merge hbase hupdate wanted .source)
  refine ⟨fun hfit => ?_, fun hlong => ?_⟩
  · have hless := Record.length_kept_le (Record.overlay row changes) wanted .source
    have hkept : (Record.overlay (Record.kept row wanted .source)
        (Record.kept changes wanted .source)).length ≤ Record.maxLength := by
      rw [← Record.kept_overlay]
      exact Nat.le_trans hless hfit
    rw [hmergedFirst, hprojectedFirst, Record.merged_of_fit hfit, Record.merged_of_fit hkept,
      ← Record.kept_overlay]
    exact ⟨rfl, rfl⟩
  · have hmerge := agree_merge hbase hupdate
    rw [Record.merged, if_pos hlong] at hmerge
    generalize (merge base update).answer = answer at hmerge ⊢
    cases hmerge
    rfl

/-- A row that repeats a wanted name, and an update that repeats a wanted and an unwanted one and
    brings one of each. -/
theorem projecting_update_repeated_names :
    let base : View := ⟨Record.encode [⟨[97], [1]⟩, ⟨[98], [2]⟩, ⟨[97], [3, 3]⟩]⟩
    let update : View := ⟨Record.encode
      [⟨[98], [4]⟩, ⟨[97], [5, 5]⟩, ⟨[99], [6]⟩, ⟨[100], []⟩, ⟨[97], []⟩, ⟨[98], []⟩]⟩
    let wanted : Selection := .list [[99], [97], [101]]
    let result := Record.encode [⟨[97], []⟩, ⟨[97], [3, 3]⟩, ⟨[99], [6]⟩]
    (merge base update >>= fun merged =>
        projectToBuffer merged.view wanted .source).answer.map Buffer.bytes = .ok result ∧
      (projectToBuffer base wanted .source >>= fun keptBase =>
        projectToBuffer update wanted .source >>= fun keptUpdate =>
          merge keptBase.view keptUpdate.view).answer.map Buffer.bytes = .ok result := by
  intro base update wanted result
  have hbase : Record.Written base.bytes [⟨[97], [1]⟩, ⟨[98], [2]⟩, ⟨[97], [3, 3]⟩] :=
    Record.written_encode (by decide)
  have hupdate : Record.Written update.bytes
      [⟨[98], [4]⟩, ⟨[97], [5, 5]⟩, ⟨[99], [6]⟩, ⟨[100], []⟩, ⟨[97], []⟩, ⟨[98], []⟩] :=
    Record.written_encode (by decide)
  obtain ⟨hmerged, hprojected⟩ :=
    (projecting_distributes_over_merging hbase hupdate wanted).1 (by decide)
  exact ⟨hmerged, hprojected.trans hmerged⟩

end FieldRecords
