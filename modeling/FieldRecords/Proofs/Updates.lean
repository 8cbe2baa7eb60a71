import FieldRecords.Proofs.Overlays

/-!
# Updates repeat and compose

A merge of records answers what the lists say (`agree_merge`), so the laws of laying fields over
fields hold of records too, byte for byte:

* **merging the same update again is granted and changes nothing**, also under a limit on fields
  (`merging_again_changes_nothing`): whatever was too long for the limit was too long the first
  time, and no field is added the second time (`Row.layAll_again`);
* **two updates can be merged one after the other, behind each other, or with each other first**
  (`updates_compose`).
-/

namespace FieldRecords

/-! ## 1. Updates that are granted -/

namespace Row

variable {r : Row} {update : List Field}

/-- A value that was laid over the row is short enough, whichever way it went. -/
theorem value_le_of_lay {s : Row} {f : Field} (h : r.lay f = .ok s) :
    f.value.length ≤ r.limit := by
  unfold lay at h
  split at h
  · split at h
    · cases h
    · omega
  · exact (append_eq_ok.1 h).2.1

theorem values_le_of_layAll (h : (r.layAll update).2 = .ok ()) :
    ∀ f ∈ update, f.value.length ≤ r.limit := by
  unfold layAll at h
  induction update generalizing r with
  | nil => exact fun f hf => absurd hf List.not_mem_nil
  | cons f update ih =>
    cases hf : r.lay f with
    | error error => rw [Answer.foldUntilRefused_cons_error hf] at h; cases h
    | ok s =>
      rw [Answer.foldUntilRefused_cons_ok hf] at h
      have hlimit : s.limit = r.limit := by rw [lay_granted hf]
      intro g hg
      rcases List.mem_cons.1 hg with rfl | hg
      · exact value_le_of_lay hf
      · exact hlimit ▸ ih h g hg

/-- **Only values count if the row has all names already.** -/
theorem layAll_of_has (hnames : ∀ f ∈ update, Record.Has r.fields f.name)
    (hvalues : ∀ f ∈ update, f.value.length ≤ r.limit) : (r.layAll update).2 = .ok () := by
  unfold layAll
  induction update generalizing r with
  | nil => rfl
  | cons f update ih =>
    have hvalue := hvalues f List.mem_cons_self
    have hany := Record.any_name_eq_true.2 (hnames f List.mem_cons_self)
    have hlay : r.lay f = .ok { r with fields := Record.put r.fields f } := by
      rw [lay, hany, if_pos rfl, if_neg (by omega), become_granted]
    have hrest : ∀ g ∈ update, Record.Has (Record.put r.fields f) g.name := by
      intro g hg
      exact Record.has_put.2 (.inr (hnames g (List.mem_cons_of_mem _ hg)))
    rw [Answer.foldUntilRefused_cons_ok hlay]
    exact ih hrest fun g hg => hvalues g (List.mem_cons_of_mem _ hg)

/-- **What was granted once is granted again**, over its own result. -/
theorem layAll_again (h : (r.layAll update).2 = .ok ()) :
    (Row.layAll ⟨r.limit, Record.overlay r.fields update⟩ update).2 = .ok () := by
  have hvalues : ∀ f ∈ update, f.value.length ≤ r.limit := values_le_of_layAll h
  have hnames : ∀ f ∈ update, Record.Has (Record.overlay r.fields update) f.name := by
    intro f hf
    exact Record.has_overlay.2 (.inl (Record.has_of_mem hf))
  exact layAll_of_has hnames hvalues

end Row

/-! ## 2. Merges that are granted -/

section

variable {base update : View} {fields changes : List Field}

/-- A merge of records is granted if laying the lists over each other is. -/
theorem outcome_mergeInto (hbase : Record.Written base.bytes fields)
    (hupdate : Record.Written update.bytes changes) (out : Buffer) :
    (mergeInto base update out).value.outcome =
      (Row.layAll ⟨out.limit, fields⟩ changes).2 :=
  (holds_mergeInto_of_written hbase hupdate rfl).outcome.trans (Row.outcome_orClear_whole _ _)

/-- **Without a limit on fields a merge of records is granted**, unless too many fields would be
    left. -/
theorem outcome_mergeInto_of_fit (hbase : Record.Written base.bytes fields)
    (hupdate : Record.Written update.bytes changes) {out : Buffer}
    (hlimit : out.limit = Record.maxLength)
    (hfit : (Record.overlay fields changes).length ≤ Record.maxLength) :
    (mergeInto base update out).value.outcome = .ok () := by
  have hshort : ∀ f ∈ changes, f.name.length ≤ out.limit ∧ f.value.length ≤ out.limit :=
    fun f hf => hlimit ▸ (hupdate.fits.2 f hf).short
  rw [outcome_mergeInto hbase hupdate]
  exact Row.layAll_of_fit hshort hfit

/-- **A merge that is granted leaves the overlay**, in a buffer with the limit it had. -/
theorem holds_mergeInto_granted (hbase : Record.Written base.bytes fields)
    (hupdate : Record.Written update.bytes changes) {out : Buffer}
    (h : (mergeInto base update out).value.outcome = .ok ()) :
    (mergeInto base update out).value.buffer.Holds
      ⟨out.limit, Record.overlay fields changes⟩ := by
  have hgranted := (outcome_mergeInto hbase hupdate out).symm.trans h
  have hbuffer := (holds_mergeInto_of_written hbase hupdate (Eq.refl out.limit)).buffer
  rw [Row.whole, hgranted] at hbuffer
  rw [← Row.layAll_granted hgranted]
  exact hbuffer

/-- **Merging the same update again is granted and writes the same bytes**, into any buffer of the
    same limit. -/
theorem mergeInto_again (hbase : Record.Written base.bytes fields)
    (hupdate : Record.Written update.bytes changes) (out again : Buffer)
    (hlimit : again.limit = out.limit)
    (h : (mergeInto base update out).value.outcome = .ok ()) :
    let merged := (mergeInto base update out).value.buffer
    (mergeInto merged.view update again).value.outcome = .ok () ∧
      (mergeInto merged.view update again).value.buffer.bytes = merged.bytes := by
  intro merged
  have hmerged : merged.Holds ⟨out.limit, Record.overlay fields changes⟩ :=
    holds_mergeInto_granted hbase hupdate h
  have hview : Record.Written merged.view.bytes (Record.overlay fields changes) := hmerged.written
  have hgranted := (outcome_mergeInto hbase hupdate out).symm.trans h
  have hagain : (mergeInto merged.view update again).value.outcome = .ok () := by
    rw [outcome_mergeInto hview hupdate, hlimit]
    exact Row.layAll_again hgranted
  refine ⟨hagain, ?_⟩
  have hsecond := (holds_mergeInto_granted hview hupdate hagain).written.eq_encode
  rw [hsecond, Record.overlay_overlay_self, hmerged.written.eq_encode]

/-- A merge into a buffer of its own answers with that buffer. -/
theorem answer_merge (base update : View) :
    let fresh := Buffer.ofCapacity (base.bytes.length + update.bytes.length)
    (merge base update).answer =
      (mergeInto base update fresh).value.outcome.map fun () =>
        (mergeInto base update fresh).value.buffer := by
  intro fresh
  unfold merge
  rw [Checked.answer_liftM_bind]
  cases (mergeInto base update fresh).value.outcome with
  | ok u => rfl
  | error error => rfl

/-- **A merge of records is the merge of their lists.** -/
theorem agree_merge (hbase : Record.Written base.bytes fields)
    (hupdate : Record.Written update.bytes changes) :
    Agree (fun b fields => Record.Written b.bytes fields) (merge base update).answer
      (Record.merged fields changes) := by
  have hshort : ∀ f ∈ changes, f.name.length ≤ Record.maxLength ∧
      f.value.length ≤ Record.maxLength := fun f hf => (hupdate.fits.2 f hf).short
  have hcount : fields.length ≤ Record.maxLength := Nat.le_of_lt_succ hbase.fits.1
  have hout := outcome_mergeInto hbase hupdate
    (Buffer.ofCapacity (base.bytes.length + update.bytes.length))
  rw [show (Buffer.ofCapacity _).limit = Record.maxLength from rfl,
    Row.layAll_of_short hshort hcount] at hout
  rw [answer_merge, Record.merged]
  split at hout
  · rename_i hlong
    rw [hout, if_pos hlong]
    exact .error _
  · rename_i hfit
    rw [hout, if_neg hfit]
    exact .ok (holds_mergeInto_granted hbase hupdate hout).written

/-- A merge that is granted leaves the written form of the overlay. -/
theorem written_of_merge (hbase : Record.Written base.bytes fields)
    (hupdate : Record.Written update.bytes changes) {b : Buffer}
    (h : (merge base update).answer = .ok b) :
    Record.Written b.bytes (Record.overlay fields changes) := by
  rw [answer_merge] at h
  obtain ⟨u, hout, rfl⟩ := Answer.map_eq_ok.1 h
  exact (holds_mergeInto_granted hbase hupdate hout).written

/-- **A merge is granted if its result has not too many fields.** -/
theorem exists_merge_of_fit (hbase : Record.Written base.bytes fields)
    (hupdate : Record.Written update.bytes changes)
    (hfit : (Record.overlay fields changes).length ≤ Record.maxLength) :
    ∃ b, (merge base update).answer = .ok b ∧
      Record.Written b.bytes (Record.overlay fields changes) := by
  have hagree := agree_merge hbase hupdate
  rw [Record.merged_of_fit hfit] at hagree
  exact hagree.of_granted

end

/-! ## 3. Merging again -/

/-- **Merging the same update again changes nothing**, with names repeated in either record as often
    as they like. If a merge is granted, then so is the merge of the same update into its result,
    under the same limit, and it writes the same bytes, whatever the outputs held before. It is the
    same for merges into buffers of their own, and for two merges by one merger. -/
theorem merging_again_changes_nothing {base update : View} {fields changes : List Field}
    (hbase : Record.Written base.bytes fields) (hupdate : Record.Written update.bytes changes) :
    (∀ out again : Buffer, again.limit = out.limit →
      let once := (mergeInto base update out).value
      once.outcome = .ok () →
        let twice := (mergeInto once.buffer.view update again).value
        twice.outcome = .ok () ∧ twice.buffer.bytes = once.buffer.bytes) ∧
    (∀ once, (merge base update).answer = .ok once →
      ∃ twice, (merge once.view update).answer = .ok twice ∧ twice.bytes = once.bytes) ∧
    ∀ (merger : Merger) (once : View),
      let first := (merger.merge base update).value
      first.2 = .ok once →
        ∃ twice, (first.1.merge once update).value.2 = .ok twice ∧ twice.bytes = once.bytes := by
  refine ⟨fun out again hlimit => ?_, fun once honce => ?_, fun merger once => ?_⟩
  · intro once honce
    exact mergeInto_again hbase hupdate out again hlimit honce
  · rw [answer_merge] at honce
    obtain ⟨u, hout, hbuffer⟩ := Answer.map_eq_ok.1 honce
    have hagain := mergeInto_again hbase hupdate _
      (Buffer.ofCapacity (once.view.bytes.length + update.bytes.length)) (by rfl) hout
    rw [hbuffer] at hagain
    refine ⟨_, ?_, hagain.2⟩
    rw [answer_merge]
    exact Answer.map_eq_ok.2 ⟨_, hagain.1, rfl⟩
  · intro first honce
    obtain ⟨u, hout, rfl⟩ := Answer.map_eq_ok.1 honce
    have hlimit := (holds_mergeInto_granted hbase hupdate hout).limit_eq
    obtain ⟨hagain, hbytes⟩ := mergeInto_again hbase hupdate _ _ hlimit hout
    exact ⟨_, Answer.map_eq_ok.2 ⟨_, hagain, rfl⟩, hbytes⟩

/-- Both records repeat a name, the update changes it and changes it back with other lengths and
    brings a new one, the limit just admits the values, and the outputs hold no records. -/
theorem merging_again_repeated_names :
    let base : View := ⟨Record.encode [⟨[97], [1]⟩, ⟨[98], [2, 2]⟩, ⟨[97], [3]⟩]⟩
    let update : View := ⟨Record.encode [⟨[97], [9, 9, 9]⟩, ⟨[99], []⟩, ⟨[97], []⟩]⟩
    let once := (mergeInto base update ⟨[7], 3, 1⟩).value
    once.outcome = .ok () ∧
      (mergeInto once.buffer.view update ⟨[], 3, 0⟩).value.outcome = .ok () ∧
      (mergeInto once.buffer.view update ⟨[], 3, 0⟩).value.buffer.bytes = once.buffer.bytes := by
  intro base update once
  have hbase : Record.Written base.bytes [⟨[97], [1]⟩, ⟨[98], [2, 2]⟩, ⟨[97], [3]⟩] :=
    Record.written_encode (by decide)
  have hupdate : Record.Written update.bytes [⟨[97], [9, 9, 9]⟩, ⟨[99], []⟩, ⟨[97], []⟩] :=
    Record.written_encode (by decide)
  -- from here on only the lists count, and nothing need be computed on bytes
  clear_value base update
  have honce : (mergeInto base update ⟨[7], 3, 1⟩).value.outcome = .ok () := by
    rw [outcome_mergeInto hbase hupdate]
    exact Row.layAll_of_fit (by decide) (by decide)
  obtain ⟨hinto, -, -⟩ := merging_again_changes_nothing hbase hupdate
  have htwice := hinto ⟨[7], 3, 1⟩ ⟨[], 3, 0⟩ rfl honce
  exact ⟨honce, htwice⟩

/-! ## 4. Merging one update after another -/

/-- Records that agree with lists have the bytes of the lists. -/
theorem map_bytes_of_agree {x : Except CodecError Buffer} {y : Except CodecError (List Field)}
    (h : Agree (fun b fields => Record.Written b.bytes fields) x y) :
    x.map Buffer.bytes = y.map Record.encode := by
  cases h with
  | ok h => exact congrArg Except.ok h.eq_encode
  | error error => rfl

/-- **Two merges, one after the other, are one merge of the updates behind each other.** -/
theorem agree_merge_merge {base first second : View} {row u₁ u₂ : List Field}
    (hbase : Record.Written base.bytes row) (hfirst : Record.Written first.bytes u₁)
    (hsecond : Record.Written second.bytes u₂) :
    Agree (fun b fields => Record.Written b.bytes fields)
      (merge base first >>= fun merged => merge merged.view second).answer
      (Record.merged row (u₁ ++ u₂)) := by
  rw [Checked.answer_bind, Record.merged_append]
  exact (agree_merge hbase hfirst).bind fun _ _ hmerged => agree_merge hmerged hsecond

/-- **Updates compose.** Merging two updates one after the other writes the same bytes, or is
    refused for the same reason, as merging one record with the fields of both; the result is the
    overlay of the lists whenever it has not too many fields. The updates can also be merged with
    each other first, unless a name of the second is repeated in the first, and where there is one
    record with the fields of both, this merge is granted. So an update can be merged with the empty
    record first, and if its names are distinct, that leaves it as it was. -/
theorem updates_compose {base first second : View} {row u₁ u₂ : List Field}
    (hbase : Record.Written base.bytes row) (hfirst : Record.Written first.bytes u₁)
    (hsecond : Record.Written second.bytes u₂) :
    let inTurn : Checked Buffer := do
      let merged ← merge base first
      merge merged.view second
    (∀ both : View, Record.Written both.bytes (u₁ ++ u₂) →
      (merge base both).answer.map Buffer.bytes = inTurn.answer.map Buffer.bytes ∧
        ∃ update, (merge first second).answer = .ok update) ∧
    ((∀ f ∈ u₂, (u₁.map Field.name).count f.name ≤ 1) →
      ∀ update, (merge first second).answer = .ok update →
        (merge base update.view).answer.map Buffer.bytes = inTurn.answer.map Buffer.bytes) ∧
    ((Record.overlay (Record.overlay row u₁) u₂).length ≤ Record.maxLength →
      inTurn.answer.map Buffer.bytes =
        .ok (Record.encode (Record.overlay (Record.overlay row u₁) u₂))) ∧
    (∃ update, (merge Buffer.new.view first).answer = .ok update ∧
      (merge base update.view).answer.map Buffer.bytes =
        (merge base first).answer.map Buffer.bytes ∧
      ((u₁.map Field.name).Nodup → update.bytes = first.bytes)) := by
  intro inTurn
  have hinTurn : inTurn.answer.map Buffer.bytes = _ :=
    map_bytes_of_agree (agree_merge_merge hbase hfirst hsecond)
  rw [hinTurn]
  refine ⟨fun both hboth => ⟨?_, ?_⟩, fun hnames update hupdate => ?_, fun hfit => ?_, ?_⟩
  · exact map_bytes_of_agree (agree_merge hbase hboth)
  · have hlength := Record.length_overlay_le u₁ u₂
    have hcount := hboth.fits.1
    rw [List.length_append] at hcount
    have hfit : (Record.overlay u₁ u₂).length ≤ Record.maxLength := by
      simp only [Record.maxLength]
      omega
    obtain ⟨update, hupdate, -⟩ := exists_merge_of_fit hfirst hsecond hfit
    exact ⟨update, hupdate⟩
  · have hwritten := written_of_merge hfirst hsecond hupdate
    rw [map_bytes_of_agree (agree_merge hbase hwritten), Record.merged_overlay row hnames]
  · rw [← Record.overlay_append] at hfit ⊢
    rw [Record.merged_of_fit hfit]
    rfl
  · have hempty : Record.Written Buffer.new.view.bytes [] := Record.written_nil
    have hlength := Record.length_overlay_le [] u₁
    have hcount := hfirst.fits.1
    rw [List.length_nil] at hlength
    have hfit : (Record.overlay [] u₁).length ≤ Record.maxLength := by
      simp only [Record.maxLength]
      omega
    obtain ⟨update, hupdate, hwritten⟩ := exists_merge_of_fit hempty hfirst hfit
    refine ⟨update, hupdate, ?_, fun hdistinct => ?_⟩
    · have hnone : ∀ f ∈ u₁, (([] : List Field).map Field.name).count f.name ≤ 1 :=
        fun _ _ => Nat.zero_le 1
      rw [map_bytes_of_agree (agree_merge hbase hwritten),
        map_bytes_of_agree (agree_merge hbase hfirst),
        Record.merged_overlay row hnone, List.nil_append]
    · have hrow : Record.overlay [] u₁ = u₁ :=
        Record.overlay_of_distinct hdistinct fun f _ =>
          Record.not_has.2 fun _ hg => absurd hg List.not_mem_nil
      rw [hwritten.eq_encode, hrow, hfirst.eq_encode]

/-- A row that repeats a name, a first update with a new name, and a second one that changes this
    name twice and brings another. -/
theorem updates_compose_repeated_names :
    let base : View := ⟨Record.encode [⟨[97], [1]⟩, ⟨[98], [2]⟩, ⟨[97], [3]⟩]⟩
    let u₁ : List Field := [⟨[98], [5, 5]⟩, ⟨[99], [7]⟩]
    let u₂ : List Field := [⟨[99], []⟩, ⟨[100], [4]⟩, ⟨[99], [9, 9]⟩]
    let first : View := ⟨Record.encode u₁⟩
    let result := Record.encode
      [⟨[97], [1]⟩, ⟨[98], [5, 5]⟩, ⟨[97], [3]⟩, ⟨[99], [9, 9]⟩, ⟨[100], [4]⟩]
    (merge base ⟨Record.encode (u₁ ++ u₂)⟩).answer.map Buffer.bytes = .ok result ∧
      (∃ update, (merge first ⟨Record.encode u₂⟩).answer = .ok update ∧
        (merge base update.view).answer.map Buffer.bytes = .ok result) ∧
      ∃ update, (merge Buffer.new.view first).answer = .ok update ∧ update.bytes = first.bytes := by
  intro base u₁ u₂ first result
  have hbase : Record.Written base.bytes [⟨[97], [1]⟩, ⟨[98], [2]⟩, ⟨[97], [3]⟩] :=
    Record.written_encode (by decide)
  have hfirst : Record.Written first.bytes u₁ := Record.written_encode (by decide)
  have hsecond : Record.Written (View.mk (Record.encode u₂)).bytes u₂ :=
    Record.written_encode (by decide)
  have hboth : Record.Written (View.mk (Record.encode (u₁ ++ u₂))).bytes (u₁ ++ u₂) :=
    Record.written_encode (by decide)
  obtain ⟨hone, hfirstly, hfit, alone, halone, -, hsame⟩ := updates_compose hbase hfirst hsecond
  obtain ⟨hinTurn, update, hupdate⟩ := hone _ hboth
  have hresult := hfit (by decide)
  refine ⟨hinTurn.trans hresult, ⟨update, hupdate, ?_⟩, alone, halone, hsame (by decide)⟩
  exact (hfirstly (by decide) update hupdate).trans hresult

end FieldRecords
