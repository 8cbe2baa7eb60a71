import FieldRecords.Proofs.RoundTrip
import FieldRecords.Proofs.Updates
import FieldRecords.Proofs.Projecting

/-!
# What a merge shows

The laws of a merge as its readers see them, without the steps by which fields are laid over a row.

* The names of the row stay in their order, and the new names of the update come behind them, each
  once, in the order in which the update first has them (`Record.names_overlay`).
* A name has the last value that the update gives it, and otherwise the value it had
  (`Record.lookup?_overlay`).
* Every field stays as it is at its place, unless it is the first one of a name in the update
  (`Record.getElem?_overlay`).

**A merge that is granted shows the update** (`View.Shows`, `merging_shows_update`), whichever way
it is asked for.
-/

namespace FieldRecords

namespace Record

/-! ## 1. New names -/

/-- The names that an update brings to a row, each once, in the order in which the update first has
    them. -/
def newNames (row update : List Field) : List Bytes :=
  ((update.map Field.name).filter fun name => !row.any fun f => f.name == name).eraseDups

/-- A name that the row has is not new. -/
theorem newNames_cons_of_has {row : List Field} {f : Field} (h : Has row f.name)
    (update : List Field) : newNames row (f :: update) = newNames row update := by
  rw [newNames, List.map_cons, List.filter_cons_of_neg (by simp [any_name_eq_true.2 h]), newNames]

/-- A name that the row does not have is new, and no longer new once the row has it. -/
theorem newNames_cons_of_absent {row : List Field} {f : Field} (h : ¬ Has row f.name)
    (update : List Field) :
    newNames row (f :: update) = f.name :: newNames (row ++ [f]) update := by
  have hany : (row.any fun g => g.name == f.name) = false :=
    Bool.eq_false_iff.2 fun he => h (any_name_eq_true.1 he)
  rw [newNames, List.map_cons, List.filter_cons_of_pos (by simp [hany]), List.eraseDups_cons,
    newNames, filter_names_append]

/-- What is new to a row depends on the names of the row alone. -/
theorem newNames_congr {row row' : List Field} (h : ∀ name, Has row name ↔ Has row' name)
    (update : List Field) : newNames row update = newNames row' update := by
  unfold newNames
  congr 1
  refine List.filter_congr fun name _ => congrArg not ?_
  rw [Bool.eq_iff_iff, any_name_eq_true, any_name_eq_true, h]

/-- **The names of an overlay** are those of the row, and behind them the new ones. -/
theorem names_overlay (row update : List Field) :
    (overlay row update).map Field.name = row.map Field.name ++ newNames row update := by
  induction update generalizing row with
  | nil => exact (List.append_nil _).symm
  | cons f update ih =>
    rw [overlay_cons, ih]
    rcases names_put row f with ⟨hhas, hnames⟩ | ⟨hnot, hnames⟩
    · have hsame : ∀ name, Has (put row f) name ↔ Has row name := by
        intro name
        rw [has_put, or_iff_right_of_imp (fun hname => hname ▸ hhas)]
      rw [hnames, newNames_cons_of_has hhas, newNames_congr hsame]
    · rw [hnames, newNames_cons_of_absent hnot, put_of_absent (not_has.1 hnot), List.append_assoc]
      rfl

/-- An overlay has as many fields more as there are new names. -/
theorem length_overlay (row update : List Field) :
    (overlay row update).length = row.length + (newNames row update).length := by
  have hlength := congrArg List.length (names_overlay row update)
  rwa [List.length_append, List.length_map, List.length_map] at hlength

/-! ## 2. Values -/

/-- The first of two lists that has the name tells its value. -/
theorem lookup?_append (row others : List Field) (name : Bytes) :
    lookup? (row ++ others) name = (lookup? row name).or (lookup? others name) := by
  rw [lookup?, List.find?_append, lookup?, lookup?]
  cases row.find? fun f => f.name == name <;> rfl

/-- **The value of a name in an overlay** is the last one that the update gives it, and otherwise
    the one it had. -/
theorem lookup?_overlay (row update : List Field) (name : Bytes) :
    lookup? (overlay row update) name = (lookup? update.reverse name).or (lookup? row name) := by
  induction update generalizing row with
  | nil => rfl
  | cons f update ih =>
    rw [overlay_cons, ih, List.reverse_cons, lookup?_append, Option.or_assoc, lookup?_put]
    congr 1
    by_cases hname : name = f.name
    · simp [lookup?, hname]
    · simp [lookup?, hname, Ne.symm hname]

/-! ## 3. Places -/

/-- The names in front of a place stay there. -/
theorem has_take_put {row : List Field} {i : Nat} {name : Bytes} (f : Field)
    (h : Has (row.take i) name) : Has ((put row f).take i) name := by
  induction row generalizing i with
  | nil =>
    rw [List.take_nil] at h
    exact absurd h (not_has.2 fun _ hf => absurd hf List.not_mem_nil)
  | cons g row ih =>
    cases i with
    | zero => exact h
    | succ i =>
      rw [List.take_succ_cons, has_cons] at h
      unfold put
      split
      · exact has_cons.2 h
      · exact has_cons.2 (h.imp_right ih)

/-- A field stays at its place when a field is put, unless it is the first one of that name. -/
theorem getElem?_put {row : List Field} {i : Nat} {g f : Field} (h : row[i]? = some g)
    (hkept : f.name = g.name → Has (row.take i) g.name) : (put row f)[i]? = some g := by
  induction row generalizing i with
  | nil => cases h
  | cons k row ih =>
    cases i with
    | zero =>
      cases h
      have hne : ¬ g.name = f.name := fun he =>
        absurd (hkept he.symm) (not_has.2 fun _ hf => absurd hf List.not_mem_nil)
      rw [put, if_neg hne]
      rfl
    | succ i =>
      unfold put
      split
      · exact h
      · rename_i hk
        refine ih h fun he => ?_
        have hhas := hkept he
        rw [List.take_succ_cons, has_cons] at hhas
        exact hhas.resolve_left fun hsame => hk (hsame.trans he.symm)

/-- **Every field stays at its place in an overlay**, unless the update has its name and it is the
    first field of that name. -/
theorem getElem?_overlay {row update : List Field} {i : Nat} {g : Field} (h : row[i]? = some g)
    (hkept : Has update g.name → Has (row.take i) g.name) : (overlay row update)[i]? = some g := by
  induction update generalizing row with
  | nil => exact h
  | cons f update ih =>
    have hput := getElem?_put h fun he => hkept (has_cons.2 (.inl he))
    refine ih hput fun hhas => has_take_put f (hkept (has_cons.2 (.inr hhas)))

end Record

/-! ## 4. Merges -/

/-- **The record shows the update of another one**, to everybody who reads it: by its fields and
    their names, by its count and by the values that are looked up. -/
structure View.Shows (v base : View) (fields changes : List Field) : Prop where
  toFields : ∃ merged, v.toFields.answer = .ok merged ∧
    merged.map Field.name = fields.map Field.name ++ Record.newNames fields changes ∧
    ∀ i f, fields[i]? = some f →
      (Record.Has changes f.name → Record.Has (fields.take i) f.name) → merged[i]? = some f
  length : v.length = base.length + (Record.newNames fields changes).length
  get? : ∀ name, (v.get? name).answer =
    match Record.lookup? changes.reverse name with
    | some value => .ok (some value)
    | none => (base.get? name).answer

/-- The written form of an overlay shows the update. -/
theorem View.shows_of_written {v base : View} {fields changes : List Field}
    (hbase : Record.Written base.bytes fields)
    (h : Record.Written v.bytes (Record.overlay fields changes)) :
    v.Shows base fields changes where
  toFields := ⟨_, answer_toFields_of_written h, Record.names_overlay fields changes,
    fun _ _ hi hkept => Record.getElem?_overlay hi hkept⟩
  length := by rw [length_of_written h, length_of_written hbase, Record.length_overlay]
  get? name := by
    rw [answer_get?_of_written h, answer_get?_of_written hbase, Record.lookup?_overlay]
    cases Record.lookup? changes.reverse name <;> rfl

/-- **A merge that is granted shows the update**: the names of the base in their order and behind
    them the new ones, each once; as many fields more as there are new names; for every name the
    last value that the update gives it, and otherwise the value in the base; and every field that
    is not the first one of a name in the update as it was, where it was. Names may be repeated in
    either record, and it is the same for a merge into any buffer, for one into a buffer of its own
    and for one by a merger. -/
theorem merging_shows_update {base update : View} {fields changes : List Field}
    (hbase : Record.Written base.bytes fields) (hupdate : Record.Written update.bytes changes) :
    (∀ out : Buffer,
      let edited := (mergeInto base update out).value
      edited.outcome = .ok () → edited.buffer.view.Shows base fields changes) ∧
    (∀ merged, (merge base update).answer = .ok merged →
      merged.view.Shows base fields changes) ∧
    ∀ (merger : Merger) (merged : View), (merger.merge base update).value.2 = .ok merged →
      merged.Shows base fields changes := by
  refine ⟨fun out => ?_, fun merged hmerged => ?_, fun merger merged hmerged => ?_⟩
  · intro edited hgranted
    exact View.shows_of_written hbase (holds_mergeInto_granted hbase hupdate hgranted).written
  · exact View.shows_of_written hbase (written_of_merge hbase hupdate hmerged)
  · obtain ⟨u, hgranted, rfl⟩ := Answer.map_eq_ok.1 hmerged
    exact View.shows_of_written hbase (holds_mergeInto_granted hbase hupdate hgranted).written

/-- Both records repeat a name. The first of the fields called `[97]` takes the last value of the
    update and the second one stays, and `[99]` comes behind them once, with its last value. -/
theorem repeated_names_shown :
    let base : View := ⟨Record.encode [⟨[97], [1]⟩, ⟨[98], [2, 2]⟩, ⟨[97], [3]⟩]⟩
    let update : View := ⟨Record.encode [⟨[99], [8]⟩, ⟨[97], [9, 9, 9]⟩, ⟨[99], []⟩, ⟨[97], []⟩]⟩
    let edited := (mergeInto base update ⟨[7], 3, 1⟩).value
    edited.outcome = .ok () ∧ edited.buffer.view.length = 4 ∧
      (∃ merged, edited.buffer.view.toFields.answer = .ok merged ∧
        merged.map Field.name = [[97], [98], [97], [99]] ∧ merged[2]? = some ⟨[97], [3]⟩) ∧
      (edited.buffer.view.get? [97]).answer = .ok (some []) ∧
      (edited.buffer.view.get? [99]).answer = .ok (some []) ∧
      (edited.buffer.view.get? [98]).answer = .ok (some [2, 2]) := by
  intro base update edited
  have hbase : Record.Written base.bytes [⟨[97], [1]⟩, ⟨[98], [2, 2]⟩, ⟨[97], [3]⟩] :=
    Record.written_encode (by decide)
  have hupdate : Record.Written update.bytes
      [⟨[99], [8]⟩, ⟨[97], [9, 9, 9]⟩, ⟨[99], []⟩, ⟨[97], []⟩] :=
    Record.written_encode (by decide)
  have hlength : base.length = 3 := rfl
  have hget : (base.get? [98]).answer = .ok (some [2, 2]) := rfl
  -- from here on only the lists count, and nothing need be computed on bytes
  clear_value base update
  have hgranted : (mergeInto base update ⟨[7], 3, 1⟩).value.outcome = .ok () := by
    rw [outcome_mergeInto hbase hupdate]
    exact Row.layAll_of_fit (by decide) (by decide)
  obtain ⟨hinto, -, -⟩ := merging_shows_update hbase hupdate
  have hshows := hinto ⟨[7], 3, 1⟩ hgranted
  obtain ⟨merged, hfields, hnames, hkept⟩ := hshows.toFields
  have hthird := hkept 2 ⟨[97], [3]⟩ rfl fun _ => ⟨_, List.mem_cons_self, rfl⟩
  refine ⟨hgranted, ?_, ⟨merged, hfields, hnames, hthird⟩, hshows.get? _, hshows.get? _, ?_⟩
  · rw [hshows.length, hlength]
    rfl
  · exact (hshows.get? [98]).trans hget

end FieldRecords
