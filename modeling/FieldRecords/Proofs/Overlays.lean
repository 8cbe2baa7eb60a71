import Mathlib.Data.List.Induction
import FieldRecords.Proofs.Merging

/-!
# Laws of laying fields over fields

What happens when one update comes after another, told on lists of fields.

* A field that is put again takes the later value (`Record.put_put`), and two fields of different
  names can be put in either order once the row has one of the names (`Record.put_comm`).
* So **an update that is laid over its own result changes nothing**
  (`Record.overlay_overlay_self`): on the way a repeated name changes its value and changes it
  back.
* **Two updates can be laid over each other first** (`Record.overlay_overlay`), as long as no name
  of the second is repeated in the first: only the first field of a name is updated, so a later
  one in the first update would come back.

A merge is refused if it leaves too many fields (`Record.merged`); the laws hold of refused merges
too (`Record.merged_append`, `Record.merged_overlay`).
-/

namespace FieldRecords

namespace Record

/-! ## 1. Names of a row -/

/-- A field of the row has this name. -/
def Has (row : List Field) (name : Bytes) : Prop := ∃ f ∈ row, f.name = name

instance (row : List Field) (name : Bytes) : Decidable (Has row name) :=
  inferInstanceAs (Decidable (∃ f ∈ row, f.name = name))

theorem has_cons {g : Field} {row : List Field} {name : Bytes} :
    Has (g :: row) name ↔ g.name = name ∨ Has row name := by
  simp only [Has, List.mem_cons, or_and_right, exists_or, exists_eq_left]

theorem not_has {row : List Field} {name : Bytes} :
    ¬ Has row name ↔ ∀ f ∈ row, f.name ≠ name := by
  simp only [Has, not_exists, not_and, ne_eq]

theorem any_name_eq_true {row : List Field} {name : Bytes} :
    (row.any fun g => g.name == name) = true ↔ Has row name := by
  simp only [List.any_eq_true, beq_iff_eq, Has]

/-- A row that is given a field has its name, and the names it had. -/
theorem has_put {row : List Field} {f : Field} {name : Bytes} :
    Has (put row f) name ↔ f.name = name ∨ Has row name := by
  induction row with
  | nil => exact has_cons
  | cons g row ih =>
    unfold put
    split
    · rename_i hg
      rw [has_cons, has_cons, hg]
      exact ⟨Or.imp_right .inr, fun h => h.elim .inl id⟩
    · rw [has_cons, has_cons, ih]
      exact or_left_comm

/-- A row that is given an update has the names of the update, and those it had. -/
theorem has_overlay {row update : List Field} {name : Bytes} :
    Has (overlay row update) name ↔ Has update name ∨ Has row name := by
  induction update generalizing row with
  | nil =>
    have hnil : ¬ Has [] name := not_has.2 fun _ hf => absurd hf List.not_mem_nil
    exact ⟨.inr, fun h => h.elim (fun h => absurd h hnil) id⟩
  | cons f update ih =>
    rw [overlay_cons, ih, has_put, has_cons]
    exact or_left_comm.trans or_assoc.symm

theorem has_of_mem {row : List Field} {f : Field} (h : f ∈ row) : Has row f.name := ⟨f, h, rfl⟩

/-- What is in a row after a field was given to it is the field, or was there before. -/
theorem mem_put {row : List Field} {f g : Field} (h : g ∈ put row f) : g = f ∨ g ∈ row := by
  induction row with
  | nil => exact .inl (List.mem_singleton.1 h)
  | cons k row ih =>
    unfold put at h
    split at h
    · rename_i hk
      rcases List.mem_cons.1 h with rfl | h
      · exact .inl (by rw [hk])
      · exact .inr (List.mem_cons_of_mem _ h)
    · rcases List.mem_cons.1 h with rfl | h
      · exact .inr List.mem_cons_self
      · exact (ih h).imp_right (List.mem_cons_of_mem _)

/-- The names of a row stay as they are, or one comes behind them. -/
theorem names_put (row : List Field) (f : Field) :
    Has row f.name ∧ (put row f).map Field.name = row.map Field.name ∨
      ¬ Has row f.name ∧ (put row f).map Field.name = row.map Field.name ++ [f.name] := by
  induction row with
  | nil => exact .inr ⟨not_has.2 fun _ hf => absurd hf List.not_mem_nil, rfl⟩
  | cons g row ih =>
    unfold put
    split
    · rename_i hg
      exact .inl ⟨has_cons.2 (.inl hg), rfl⟩
    · rename_i hg
      rw [has_cons, List.map_cons, List.map_cons]
      rcases ih with ⟨hhas, hnames⟩ | ⟨hnot, hnames⟩
      · exact .inl ⟨.inr hhas, by rw [hnames]⟩
      · exact .inr ⟨fun h => h.elim hg hnot, by rw [hnames]; rfl⟩

/-- Giving a field to a row repeats no name. -/
theorem count_names_put (row : List Field) (f : Field) {name : Bytes}
    (h : (row.map Field.name).count name ≤ 1) :
    ((put row f).map Field.name).count name ≤ 1 := by
  rcases names_put row f with ⟨-, hnames⟩ | ⟨hnot, hnames⟩
  · rw [hnames]
    exact h
  · rw [hnames, List.count_append, List.count_singleton]
    split
    · rename_i hname
      have habsent : name ∉ row.map Field.name := by
        intro hmem
        obtain ⟨g, hg, rfl⟩ := List.mem_map.1 hmem
        exact hnot ⟨g, hg, (beq_iff_eq.1 hname).symm⟩
      have hzero : (row.map Field.name).count name = 0 := List.count_eq_zero.2 habsent
      omega
    · exact h

/-! ## 2. One field after another -/

/-- **The later value of a name counts.** -/
theorem put_put (row : List Field) {f g : Field} (h : f.name = g.name) :
    put (put row f) g = put row g := by
  have hg : (⟨f.name, g.value⟩ : Field) = g := by rw [h]
  induction row with
  | nil =>
    show put [f] g = [g]
    rw [put, if_pos h, hg]
  | cons a row ih =>
    by_cases ha : a.name = f.name
    · have hag : a.name = g.name := ha.trans h
      rw [put, if_pos ha, put, if_pos hag, put, if_pos hag]
    · have hag : ¬ a.name = g.name := fun e => ha (e.trans h.symm)
      rw [put, if_neg ha, put, if_neg hag, ih, put, if_neg hag]

/-- **Different names can be put in either order**, once the row has one of them: then only the
    other one can go to the end. -/
theorem put_comm {row : List Field} {f g : Field} (h : f.name ≠ g.name) (hg : Has row g.name) :
    put (put row f) g = put (put row g) f := by
  induction row with
  | nil => exact absurd hg (not_has.2 fun _ hf => absurd hf List.not_mem_nil)
  | cons a row ih =>
    by_cases haf : a.name = f.name
    · have hag : ¬ a.name = g.name := fun e => h (haf.symm.trans e)
      rw [put, if_pos haf, put, if_neg hag, put, if_neg hag, put, if_pos haf]
    · by_cases hag : a.name = g.name
      · rw [put, if_neg haf, put, if_pos hag, put, if_pos hag, put, if_neg haf]
      · have hrow : Has row g.name := (has_cons.1 hg).resolve_left hag
        rw [put, if_neg haf, put, if_neg hag, put, if_neg hag, put, if_neg haf, ih hrow]

/-! ## 3. The same update again -/

/-- A field that is put again in the end need not have been put before an update, if the row has
    the names of the update. -/
theorem put_overlay_put {row update : List Field} (f : Field)
    (h : ∀ g ∈ update, Has row g.name) :
    put (overlay (put row f) update) f = put (overlay row update) f := by
  induction update generalizing row with
  | nil => exact put_put row rfl
  | cons g update ih =>
    by_cases hname : f.name = g.name
    · rw [overlay_cons, overlay_cons, put_put row hname]
    · have hg : Has row g.name := h g List.mem_cons_self
      have hupdate : ∀ k ∈ update, Has (put row g) k.name := by
        intro k hk
        exact has_put.2 (.inr (h k (List.mem_cons_of_mem _ hk)))
      rw [overlay_cons, overlay_cons, put_comm hname hg]
      exact ih hupdate

/-- **An update laid over its own result changes nothing.** -/
theorem overlay_overlay_self (row update : List Field) :
    overlay (overlay row update) update = overlay row update := by
  -- the last field first: it is put in the end of both rounds, so its first round does not count
  induction update using List.reverseRecOn with
  | nil => rfl
  | append_singleton update f ih =>
    have hnames : ∀ g ∈ update, Has (overlay row update) g.name := by
      intro g hg
      exact has_overlay.2 (.inl (has_of_mem hg))
    calc overlay (overlay row (update ++ [f])) (update ++ [f])
        = put (overlay (put (overlay row update) f) update) f := by
          rw [overlay_append, overlay_append]
          rfl
      _ = put (overlay (overlay row update) update) f := put_overlay_put f hnames
      _ = put (overlay row update) f := by rw [ih]
      _ = overlay row (update ++ [f]) := by
          rw [overlay_append]
          rfl

/-! ## 4. One update over another -/

/-- A field whose name the update does not have can be put before or after it, if the row has the
    name. -/
theorem put_overlay_of_absent {row update : List Field} {f : Field} (hrow : Has row f.name)
    (h : ∀ g ∈ update, g.name ≠ f.name) :
    put (overlay row update) f = overlay (put row f) update := by
  induction update generalizing row with
  | nil => rfl
  | cons g update ih =>
    have hput : Has (put row g) f.name := has_put.2 (.inr hrow)
    have hupdate : ∀ k ∈ update, k.name ≠ f.name :=
      fun k hk => h k (List.mem_cons_of_mem _ hk)
    rw [overlay_cons, overlay_cons, ih hput hupdate, put_comm (h g List.mem_cons_self) hrow]

/-- **A field put into an update is put into its result**, unless the update repeats the name. -/
theorem overlay_put (row : List Field) {update : List Field} {f : Field}
    (h : (update.map Field.name).count f.name ≤ 1) :
    overlay row (put update f) = put (overlay row update) f := by
  induction update generalizing row with
  | nil => rfl
  | cons g update ih =>
    rw [List.map_cons, List.count_cons] at h
    by_cases hname : g.name = f.name
    · have hcount : (update.map Field.name).count f.name = 0 := by
        rw [if_pos (beq_iff_eq.2 hname)] at h
        omega
      have habsent : ∀ k ∈ update, k.name ≠ f.name := by
        intro k hk hsame
        exact List.count_eq_zero.1 hcount (hsame ▸ List.mem_map_of_mem hk)
      have hrow : Has (put row g) f.name := has_put.2 (.inl hname)
      have hf : (⟨g.name, f.value⟩ : Field) = f := by rw [hname]
      rw [put, if_pos hname, hf, overlay_cons, overlay_cons, put_overlay_of_absent hrow habsent,
        put_put row hname]
    · have hcount : (update.map Field.name).count f.name ≤ 1 := by omega
      rw [put, if_neg hname, overlay_cons, overlay_cons, ih _ hcount]

/-- **Two updates can be laid over each other first**, if no name of the second is repeated in the
    first. -/
theorem overlay_overlay (row : List Field) {first second : List Field}
    (h : ∀ f ∈ second, (first.map Field.name).count f.name ≤ 1) :
    overlay row (overlay first second) = overlay (overlay row first) second := by
  induction second generalizing first with
  | nil => rfl
  | cons f second ih =>
    have hsecond : ∀ g ∈ second, ((put first f).map Field.name).count g.name ≤ 1 := by
      intro g hg
      exact count_names_put first f (h g (List.mem_cons_of_mem _ hg))
    rw [overlay_cons, overlay_cons, ih hsecond, overlay_put row (h f List.mem_cons_self)]

/-- A name that the first update repeats comes back: only its first field is updated, and the
    second one is laid over it again. -/
example :
    overlay [] (overlay [⟨[97], [1]⟩, ⟨[97], [2]⟩] [⟨[97], [3]⟩]) = [⟨[97], [2]⟩] ∧
      overlay (overlay [] [⟨[97], [1]⟩, ⟨[97], [2]⟩]) [⟨[97], [3]⟩] = [⟨[97], [3]⟩] := by decide

/-- Fields of distinct names that a row does not have go to its end. -/
theorem overlay_of_distinct {row update : List Field} (hdistinct : (update.map Field.name).Nodup)
    (h : ∀ f ∈ update, ¬ Has row f.name) : overlay row update = row ++ update := by
  induction update generalizing row with
  | nil => exact (List.append_nil row).symm
  | cons f update ih =>
    obtain ⟨hf, hupdate⟩ := List.nodup_cons.1 hdistinct
    have habsent : ∀ g ∈ update, ¬ Has (put row f) g.name := by
      intro g hg hhas
      rcases has_put.1 hhas with hname | hrow
      · exact hf (hname ▸ List.mem_map_of_mem hg)
      · exact h g (List.mem_cons_of_mem _ hg) hrow
    rw [overlay_cons, ih hupdate habsent, put_of_absent (not_has.1 (h f List.mem_cons_self)),
      List.append_assoc]
    rfl

/-- The result of an update is no longer than the row and the update together. -/
theorem length_overlay_le (row update : List Field) :
    (overlay row update).length ≤ row.length + update.length := by
  induction update generalizing row with
  | nil => exact Nat.le_refl _
  | cons f update ih =>
    have hput : (put row f).length ≤ row.length + 1 := by
      rcases names_put row f with ⟨-, hnames⟩ | ⟨-, hnames⟩
      · have hlength := congrArg List.length hnames
        simp only [List.length_map] at hlength
        omega
      · have hlength := congrArg List.length hnames
        simp only [List.length_map, List.length_append, List.length_singleton] at hlength
        omega
    have hrest := ih (put row f)
    rw [overlay_cons, List.length_cons]
    omega

/-! ## 5. Too many fields -/

/-- What a merge without a limit of its own makes of lists: their overlay, unless it has too many
    fields. -/
def merged (row update : List Field) : Except CodecError (List Field) :=
  if maxLength < (overlay row update).length then .error .tooManyFields
  else .ok (overlay row update)

theorem merged_of_fit {row update : List Field} (h : (overlay row update).length ≤ maxLength) :
    merged row update = .ok (overlay row update) := by
  rw [merged, if_neg (Nat.not_lt.2 h)]

/-- **One update behind the other is refused if one of the two is**, and for the same reason. -/
theorem merged_append (row first second : List Field) :
    merged row (first ++ second) = (merged row first).bind fun row => merged row second := by
  unfold merged
  rw [overlay_append]
  by_cases hfirst : maxLength < (overlay row first).length
  · have hlonger := length_le_overlay (overlay row first) second
    rw [if_pos hfirst, if_pos (Nat.lt_of_lt_of_le hfirst hlonger)]
    rfl
  · rw [if_neg hfirst]
    rfl

/-- An update over another one is refused if one behind the other is. -/
theorem merged_overlay (row : List Field) {first second : List Field}
    (h : ∀ f ∈ second, (first.map Field.name).count f.name ≤ 1) :
    merged row (overlay first second) = merged row (first ++ second) := by
  unfold merged
  rw [overlay_overlay row h, overlay_append]

end Record

end FieldRecords
