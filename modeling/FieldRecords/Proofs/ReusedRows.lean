import FieldRecords.Proofs.Reports
import FieldRecords.Proofs.Verdicts

/-!
# Lists of fields that are read into again

Reading a record into a list writes its fields over those that are there, from the first on, and
adds those that find no place behind them. What the longer record before has left is cut off at the
end; a fault is met after some fields have been written, and then the list is emptied.

**Between two steps the list holds the fields written so far, and behind them what it held there
before** (`RowList.toList_putAll`). The room that is made before the first step is enough for all of
them, because a field takes eight bytes (`View.length_contents_le_expectedFields`), so no step moves
the list, whatever number of fields the count declares.

`rows_reused_leave_nothing_stale` says what is left in the list, of every byte string and every
list.
-/

namespace FieldRecords

namespace RowList

variable {r : RowList}

/-! ## 1. Room -/

/-- There is room for the fields that are there. -/
def Roomy (r : RowList) : Prop := r.rows.size ≤ r.capacity

/-- Room is missing if there is less than asked for. -/
theorem shortfall_eq_some {count additional : Nat} (h : r.shortfall count = some additional) :
    r.capacity < count ∧ additional = count - r.rows.size := by
  unfold shortfall at h
  split at h
  · rename_i hcapacity
    cases h
    exact ⟨hcapacity, rfl⟩
  · cases h

theorem shortfall_eq_none {count : Nat} (h : r.shortfall count = none) : count ≤ r.capacity := by
  unfold shortfall at h
  split at h
  · cases h
  · rename_i hcapacity
    exact Nat.le_of_not_lt hcapacity

/-- **What is missing is no less than nothing**: together with the fields that are there it makes up
    the number asked for. -/
theorem Roomy.size_add_shortfall (h : r.Roomy) {count additional : Nat}
    (hshort : r.shortfall count = some additional) : r.rows.size + additional = count := by
  obtain ⟨hcapacity, rfl⟩ := shortfall_eq_some hshort
  exact Nat.add_sub_cancel' (Nat.le_of_lt (Nat.lt_of_le_of_lt h hcapacity))

/-- Room is made up to the number asked for, and none is given back. -/
theorem Roomy.capacity_reserve (h : r.Roomy) (count : Nat) :
    (r.reserve count).capacity = max r.capacity count := by
  unfold reserve
  cases hshort : r.shortfall count with
  | some additional =>
    have hcapacity := (shortfall_eq_some hshort).1
    exact (h.size_add_shortfall hshort).trans (Nat.max_eq_right (Nat.le_of_lt hcapacity)).symm
  | none => exact (Nat.max_eq_left (shortfall_eq_none hshort)).symm

theorem rows_reserve (r : RowList) (count : Nat) : (r.reserve count).rows = r.rows := by
  unfold reserve
  split <;> rfl

theorem Roomy.reserve (h : r.Roomy) (count : Nat) : (r.reserve count).Roomy := by
  unfold Roomy
  rw [rows_reserve, h.capacity_reserve]
  exact Nat.le_trans h (Nat.le_max_left _ _)

/-- **A field that finds room moves nothing.** -/
theorem Roomy.put (h : r.Roomy) {i : Nat} (hi : i ≤ r.rows.size) (hroom : i < r.capacity)
    (f : Field) :
    (r.put i f).Roomy ∧ (r.put i f).capacity = r.capacity ∧ i + 1 ≤ (r.put i f).rows.size := by
  unfold Roomy at h ⊢
  unfold RowList.put
  split
  · rename_i hlt
    rw [Array.size_setIfInBounds]
    exact ⟨h, rfl, hlt⟩
  · rename_i hge
    have hsize : (r.rows.push f).size = r.rows.size + 1 := Array.size_push f
    refine ⟨?_, Nat.max_eq_left (by omega), ?_⟩
    · exact hsize ▸ Nat.le_max_right _ _
    · rw [hsize]
      exact Nat.succ_le_succ hi

theorem Roomy.truncate (h : r.Roomy) (count : Nat) : (r.truncate count).Roomy := by
  have hlength : (r.truncate count).toList.length ≤ r.toList.length := by
    rw [toList_truncate]
    exact List.length_take_le' _ _
  exact Nat.le_trans hlength h

/-- **No step needs more room than there is**, as long as all fields find theirs. -/
theorem Roomy.putAll {fields : List Field} {i : Nat} (h : r.Roomy) (hi : i ≤ r.rows.size)
    (hroom : i + fields.length ≤ r.capacity) :
    (r.putAll i fields).Roomy ∧ (r.putAll i fields).capacity = r.capacity := by
  induction fields generalizing r i with
  | nil => exact ⟨h, rfl⟩
  | cons f fields ih =>
    rw [List.length_cons] at hroom
    obtain ⟨hput, hcapacity, hnext⟩ := h.put hi (by omega) f
    obtain ⟨hall, hkept⟩ := ih hput hnext (by omega)
    exact ⟨hall, hkept.trans hcapacity⟩

end RowList

/-! ## 2. Reading into a list -/

namespace View

variable (v : View) (out : RowList)

/-- Reading with the list in hand up to the end: a refusal finds it half written over, and empties
    it. `readInto` lets go of the list when it is refused, so that no step has to keep a copy of
    it. -/
def readInPlace : Metered (RowList × Except CodecError Unit) := do
  let ((out, count), outcome) ← v.walk.foldUntilRefused
    (fun (out, i) e => pure (out.put i e.field, i + 1)) (out.reserve v.expectedFields, 0)
  match outcome with
  | .ok () => return (out.truncate count, .ok ())
  | .error error => return (out.clear, .error error)

/-- **What reading leaves**: the fields written over the list and nothing behind them, or
    nothing. -/
theorem readInPlace_eq :
    v.readInPlace out =
      (fun outcome => (match outcome with
        | .ok () => (v.writtenOver out).truncate v.contents.fields.length
        | .error _ => (v.writtenOver out).clear, outcome)) <$> v.contents.conclude.run := by
  unfold readInPlace
  rw [foldUntilRefused_put, bind_map_left, map_eq_pure_bind]
  refine bind_congr fun outcome => ?_
  cases outcome <;> rfl

/-- The list that is written over has been given all the room it needs. -/
theorem roomy_writtenOver (h : out.Roomy) :
    (v.writtenOver out).Roomy ∧
      (v.writtenOver out).capacity = (out.reserve v.expectedFields).capacity := by
  have hroom : 0 + v.contents.fields.length ≤ (out.reserve v.expectedFields).capacity := by
    rw [h.capacity_reserve, Nat.zero_add]
    exact Nat.le_trans v.length_contents_le_expectedFields (Nat.le_max_right _ _)
  exact (h.reserve v.expectedFields).putAll (Nat.zero_le _) hroom

/-- **A refusal leaves the same whether it finds the list as it was or half written over**, because
    no step has moved the list. -/
theorem readInto_eq_readInPlace (h : out.Roomy) : v.readInto out = v.readInPlace out := by
  have hclear : (out.reserve v.expectedFields).clear = (v.writtenOver out).clear := by
    unfold RowList.clear
    rw [(v.roomy_writtenOver out h).2]
  rw [readInto_eq, hclear]
  exact (v.readInPlace_eq out).symm

/-- The fields that are left in the list are those of the view, whatever list it was. -/
theorem map_toList_readInto :
    (fun read => read.2.map fun () => read.1.toList) <$> v.readInto out =
      (fun outcome => outcome.map fun () => v.contents.fields) <$> v.contents.conclude.run := by
  rw [readInto_eq, Functor.map_map]
  refine map_congr fun outcome => ?_
  cases outcome with
  | ok u => exact congrArg Except.ok (v.toList_truncate_writtenOver out)
  | error error => rfl

/-- Reading the fields is reading them into any list. -/
theorem run_toFields :
    v.toFields.run = (fun read => read.2.map fun () => read.1.toList) <$> v.readInto out :=
  calc v.toFields.run
    _ = (fun read => read.2.map fun () => read.1.toList) <$> v.readInto RowList.empty :=
      Checked.run_orThrow (v.readInto RowList.empty) Prod.snd fun read => read.1.toList
    _ = _ := (v.map_toList_readInto RowList.empty).trans (v.map_toList_readInto out).symm

/-- The list that is left has the room that was made for it, and no other. -/
theorem roomy_readInto (h : out.Roomy) :
    let left := (v.readInto out).value.1
    left.Roomy ∧ left.capacity = (out.reserve v.expectedFields).capacity := by
  obtain ⟨hroomy, hcapacity⟩ := v.roomy_writtenOver out h
  rw [readInto_eq_readInPlace v out h, readInPlace_eq, Checked.value_map]
  cases v.contents.conclude.run.value with
  | ok u => exact ⟨hroomy.truncate _, hcapacity⟩
  | error error => exact ⟨Nat.zero_le _, hcapacity⟩

end View

/-! ## 3. Nothing is left of another record -/

/-- **A list that is read into again holds the record and nothing else.** Of a byte string with a
    count, and any list of fields with room for what it holds: if the bytes are a record, its fields
    are left in the list, in order; otherwise nothing is left, and the answer is the one fault that
    a walk meets, also where fields had been written over the list before it was met. What the list
    held does not matter to the answer, to what is left or to what is reported, and all three are as
    in reading the fields.

    The room that is missing is computed without going below zero and is for no more fields than the
    bytes can hold, whatever the count declares. It is never for fewer fields than a record has. In
    the end there is room for that many at least, and for no fewer than before. -/
theorem rows_reused_leave_nothing_stale {bytes : Bytes} (hheader : 4 ≤ bytes.length)
    {out : RowList} (hroom : out.Roomy) :
    let v : View := ⟨bytes⟩
    let left := (v.readInto out).value.1
    let outcome := (v.readInto out).value.2
    (∀ fields, Record.Written bytes fields → outcome = .ok () ∧ left.toList = fields) ∧
    ((¬ ∃ fields, Record.Written bytes fields) → ∃ error,
      v.walk.faults (v.length + 1) = [error] ∧ outcome = .error error ∧ left.toList = []) ∧
    v.readInto out = v.readInPlace out ∧
    (∀ other : RowList, (v.readInto other).value.2 = outcome ∧
      (v.readInto other).value.1.toList = left.toList ∧
      (v.readInto other).events = (v.readInto out).events) ∧
    v.toFields.run = (fun (left, outcome) => outcome.map fun () => left.toList) <$>
      v.readInto out ∧
    (∀ additional, out.shortfall v.expectedFields = some additional →
      out.rows.size + additional = v.expectedFields ∧ additional ≤ (bytes.length - 4) / 8) ∧
    left.Roomy ∧ out.capacity ≤ left.capacity ∧ v.expectedFields ≤ left.capacity ∧
    (∀ fields, Record.Written bytes fields →
      fields.length ≤ (bytes.length - 4) / 8 ∧ v.expectedFields = fields.length) := by
  intro v left outcome
  have hcap : v.expectedFields ≤ (bytes.length - 4) / 8 := Nat.min_le_right _ _
  obtain ⟨houtcome, hleft⟩ : outcome = _ ∧ left.toList = _ := v.value_readInto out
  obtain ⟨hroomy, hcapacity⟩ : left.Roomy ∧ left.capacity = _ := v.roomy_readInto out hroom
  rw [hroom.capacity_reserve] at hcapacity
  refine ⟨fun fields h => ?_, fun habsent => ?_, v.readInto_eq_readInPlace out hroom,
    fun other => ?_, v.run_toFields out, fun additional hshort => ?_, hroomy,
    hcapacity ▸ Nat.le_max_left _ _, hcapacity ▸ Nat.le_max_right _ _, fun fields h => ?_⟩
  · have hcontents : v.contents = ⟨fields, none⟩ := View.contents_of_written h
    rw [houtcome, hleft, hcontents]
    exact ⟨rfl, rfl⟩
  · cases hfault : v.contents.fault with
    | none => exact absurd ⟨_, Record.written_of_fault_none hheader hfault⟩ habsent
    | some error =>
      have hfaults := (Walk.yielded_faults_eq (Nat.lt_succ_self v.walk.remaining)).2
      have hverdict : v.contents.verdict = .error error := by rw [Contents.verdict, hfault]
      refine ⟨error, ?_, ?_, ?_⟩
      · exact hfaults.trans (by rw [View.contents_walk, hfault]; rfl)
      · rw [houtcome, hverdict]
      · rw [hleft, hverdict]
  · obtain ⟨hother, hotherLeft⟩ := v.value_readInto other
    refine ⟨hother.trans houtcome.symm, hotherLeft.trans hleft.symm, ?_⟩
    rw [View.readInto_eq, View.readInto_eq, Checked.events_map, Checked.events_map]
  · have hsize := hroom.size_add_shortfall hshort
    exact ⟨hsize, by omega⟩
  · have hcontents : v.contents = ⟨fields, none⟩ := View.contents_of_written h
    have hexpected := v.length_contents_le_expectedFields
    rw [hcontents] at hexpected
    have hdeclared : v.expectedFields ≤ v.length := Nat.min_le_left _ _
    rw [View.length_of_written h] at hdeclared
    exact ⟨Nat.le_trans hexpected hcap, Nat.le_antisymm hdeclared hexpected⟩

/-- The largest count is declared, one field is there, and the list holds two others: they are gone,
    and so is the field that had been written over the first of them, but the room is still
    there. -/
theorem rows_under_largest_count :
    let v : View := ⟨[255, 255, 255, 255, 1, 0, 0, 0, 97, 1, 0, 0, 0, 7]⟩
    let out : RowList := .ofList [⟨[98], [1]⟩, ⟨[99], [2]⟩]
    4 ≤ v.bytes.length ∧ out.Roomy ∧
      (v.readInto out).value.1.toList = [] ∧ 2 ≤ (v.readInto out).value.1.capacity := by
  intro v out
  have hheader : 4 ≤ v.bytes.length := by decide
  have hroom : out.Roomy := Nat.le_refl 2
  obtain ⟨-, hrefused, -, -, -, -, -, hcapacity, -, hwhole⟩ :=
    rows_reused_leave_nothing_stale hheader hroom
  have habsent : ¬ ∃ fields, Record.Written v.bytes fields := by
    rintro ⟨fields, h⟩
    have hfew : fields.length ≤ 1 := Nat.le_trans (hwhole fields h).1 (by decide)
    have hdeclared : 4294967295 = fields.length := View.length_of_written (v := v) h
    omega
  obtain ⟨error, -, -, hleft⟩ := hrefused habsent
  exact ⟨hheader, hroom, hleft, hcapacity⟩

end FieldRecords
