import FieldRecords.Workload.Schema
import FieldRecords.Proofs.Edits
import FieldRecords.Proofs.Tallies

/-!
# What generated rows hold

The row of a number has a field for each name of the schema, with the values of consecutive numbers
(`Schema.row`). If names and values can be written (`Schema.Fits`) and the limit of a buffer admits
them (`Schema.AdmittedBy`), then **filling the buffer with a row, or with one field, succeeds and
leaves the written form**, whatever the buffer and the value held before
(`Schema.Fits.fillRow_admitted`, `Schema.Fits.fillField_admitted`). Each row is one clearing and as
many fields as there are names (`Schema.rowEvents`).
-/

namespace FieldRecords

namespace Schema

variable {s : Schema}

/-! ## 1. Rows as lists -/

/-- A field for each name, with the values of the numbers from `seed` on. -/
def fieldsFrom (s : Schema) (names : List String) (seed : UInt64) : List Field :=
  names.mapIdx fun i name => ⟨Utf8.ofText name, s.value (seed + i.toUInt64)⟩

/-- **The row of a number.** -/
def row (s : Schema) (seed : UInt64) : List Field := s.fieldsFrom s.names seed

/-- **Four bytes can hold** the number of fields, the length of every name and that of the
    values. -/
structure Fits (s : Schema) : Prop where
  count_le : s.names.length ≤ Record.maxLength
  name_le : ∀ name ∈ s.names, (Utf8.ofText name).length ≤ Record.maxLength
  value_le : s.valueLength ≤ Record.maxLength

/-- **A limit admits** every name and the values. -/
structure AdmittedBy (s : Schema) (limit : Nat) : Prop where
  name_le : ∀ name ∈ s.names, (Utf8.ofText name).length ≤ limit
  value_le : s.valueLength ≤ limit

/-- What can be written is admitted by a buffer without a limit of its own. -/
theorem Fits.admittedBy (h : s.Fits) : s.AdmittedBy Record.maxLength := ⟨h.name_le, h.value_le⟩

@[simp] theorem fieldsFrom_nil (s : Schema) (seed : UInt64) : s.fieldsFrom [] seed = [] := rfl

theorem fieldsFrom_cons (s : Schema) (name : String) (names : List String) (seed : UInt64) :
    s.fieldsFrom (name :: names) seed =
      ⟨Utf8.ofText name, s.value seed⟩ :: s.fieldsFrom names (seed + 1) := by
  have hnext : ∀ i : Nat, seed + (i + 1).toUInt64 = seed + 1 + i.toUInt64 := by
    intro i
    have hsum : (i + 1).toUInt64 = i.toUInt64 + 1 := UInt64.ofNat_add i 1
    rw [hsum, UInt64.add_assoc, UInt64.add_comm 1]
  have hfirst : seed + (0 : Nat).toUInt64 = seed := UInt64.add_zero seed
  simp only [fieldsFrom, List.mapIdx_cons, hnext, hfirst]

theorem length_value (s : Schema) (seed : UInt64) : (s.value seed).length = s.valueLength := by
  simp [value]

theorem length_row (s : Schema) (seed : UInt64) : (s.row seed).length = s.names.length :=
  List.length_mapIdx

/-- A row of names and values that can be written can be written. -/
theorem Fits.row (h : s.Fits) (seed : UInt64) : Record.Fits (s.row seed) := by
  have hcount := h.count_le
  have hvalue := h.value_le
  simp only [Record.maxLength] at hcount hvalue
  refine ⟨?_, fun f hf => ?_⟩
  · rw [length_row]
    omega
  · obtain ⟨i, hi, rfl⟩ := List.mem_mapIdx.1 hf
    have hname := h.name_le _ (List.getElem_mem hi)
    simp only [Record.maxLength] at hname
    refine ⟨Nat.lt_succ_of_le hname, ?_⟩
    rw [length_value]
    omega

/-- **A schema is made** if there is a field at all and room for all names, and then it has the
    names it was asked for. -/
theorem create_eq_ok {stem : String} {fieldCount valueLength : Nat} :
    create stem fieldCount valueLength = .ok s ↔
      fieldCount ≠ 0 ∧ fieldCount * Room.perText ≤ Room.maxBytes ∧
        s = ⟨(List.range fieldCount).map fun i => stem ++ toString i, valueLength⟩ := by
  rw [create, ← Room.ask_eq_ok_iff]
  by_cases hzero : fieldCount = 0
  · rw [if_pos hzero]
    constructor
    · intro h
      cases h
    · rintro ⟨hne, -, -⟩
      exact absurd hzero hne
  · rw [if_neg hzero]
    constructor
    · intro h
      obtain ⟨_, hroom, h⟩ := Answer.bind_eq_ok.1 h
      cases h
      exact ⟨hzero, hroom, rfl⟩
    · rintro ⟨-, hroom, rfl⟩
      exact Answer.bind_eq_ok.2 ⟨(), hroom, rfl⟩

/-! ## 2. Filling a buffer -/

/-- There is room for a value that can be written. -/
theorem Fits.makeValue (h : s.Fits) (seed : UInt64) : s.makeValue seed = .ok (s.value seed) := by
  have hvalue := h.value_le
  have hroom : Room.ask s.valueLength 1 = .ok () := by
    rw [Room.ask_eq_ok_iff, Room.maxBytes]
    simp only [Record.maxLength] at hvalue
    omega
  rw [Schema.makeValue, hroom]
  rfl

/-- What one row reports: it is cleared once, and each field is appended. -/
def rowEvents (s : Schema) : List Event :=
  .count .recordClear 1 :: List.replicate s.names.length (.count .recordAppend 1)

/-- What a row adds to the counters. -/
theorem total_rowEvents (s : Schema) (c : Counter) :
    Event.total c s.rowEvents =
      match c with
      | .recordAppend => s.names.length
      | .recordClear => 1
      | _ => 0 := by
  rw [rowEvents, Event.total, Event.total_replicate]
  cases c <;> simp [Event.amount]

/-- Neither a size nor a time is among it. -/
theorem eq_count_of_mem_rowEvents {event : Event} (h : event ∈ s.rowEvents) :
    ∃ c n, event = .count c n := by
  rcases List.mem_cons.1 h with rfl | h
  · exact ⟨.recordClear, 1, rfl⟩
  · exact ⟨.recordAppend, 1, List.eq_of_mem_replicate h⟩

/-- **No field is refused**: behind the fields that are accepted already come those of all names
    that are left. -/
theorem Fits.acceptFields_eq (h : s.Fits) {b : Buffer} (hlimit : s.AdmittedBy b.limit)
    {names : List String} (hnames : ∀ name ∈ names, name ∈ s.names) (seed : UInt64)
    {accepted : Buffer.Batch} (hcount : accepted.count + names.length ≤ Record.maxLength)
    (value : Bytes) :
    ∃ last, s.acceptFields b names seed accepted value =
      ⟨((s.fieldsFrom names seed).foldl Buffer.Batch.add accepted, last, .ok (.ok ())),
        List.replicate names.length (.count .recordAppend 1)⟩ := by
  induction names generalizing seed accepted value with
  | nil =>
    rw [acceptFields, fieldsFrom_nil]
    exact ⟨value, rfl⟩
  | cons name names ih =>
    rw [List.length_cons] at hcount
    let field : Field := ⟨Utf8.ofText name, s.value seed⟩
    have hname : field.name.length ≤ b.limit :=
      hlimit.name_le name (hnames name List.mem_cons_self)
    have hvalue : field.value.length ≤ b.limit := by
      rw [length_value]
      exact hlimit.value_le
    have haccept := b.accept_granted accepted hname hvalue (by omega)
    have hleft : ∀ other ∈ names, other ∈ s.names := fun other hother =>
      hnames other (List.mem_cons_of_mem _ hother)
    have hroom : (accepted.add field).count + names.length ≤ Record.maxLength := by
      show accepted.count + 1 + names.length ≤ _
      omega
    obtain ⟨last, hrest⟩ := ih hleft (seed + 1) hroom (s.value seed)
    refine ⟨last, ?_⟩
    rw [acceptFields, h.makeValue]
    dsimp only
    rw [haccept]
    apply Metered.ext
    · rw [Metered.value_bind]
      dsimp only
      rw [hrest, fieldsFrom_cons]
      rfl
    · rw [Metered.events_bind]
      dsimp only
      rw [hrest]
      rfl

/-- **A row is filled in whatever the buffer and the value held before**, if the buffer
    admits it. -/
theorem Fits.fillRow_admitted (h : s.Fits) {b : Buffer} (hlimit : s.AdmittedBy b.limit)
    (value : Bytes) (seed : UInt64) :
    ∃ filled last, s.fillRow b value seed = ⟨⟨filled, last, .ok (.ok ())⟩, s.rowEvents⟩ ∧
      filled.Holds ⟨b.limit, s.row seed⟩ := by
  have hclear : b.clear.value.Holds ⟨b.limit, []⟩ := Buffer.holds_clear (r := ⟨b.limit, []⟩) rfl
  have hempty : b.clear.value.batch.count = 0 := Buffer.length_of_holds hclear
  have hroom : b.clear.value.batch.count + s.names.length ≤ Record.maxLength := by
    rw [hempty, Nat.zero_add]
    exact h.count_le
  obtain ⟨last, haccepted⟩ := h.acceptFields_eq (b := b.clear.value) hlimit
    (fun _ hname => hname) seed hroom value
  refine ⟨b.clear.value.write ((s.row seed).foldl Buffer.Batch.add b.clear.value.batch), last, ?_,
    (Buffer.holds_write_all hclear (h.row seed)).holds⟩
  apply Metered.ext
  · rw [fillRow, Metered.value_bind, Metered.value_bind, haccepted]
    rfl
  · rw [fillRow, Metered.events_bind, Metered.events_bind, haccepted]
    exact congrArg _ (List.append_nil _)

/-- So it is in a buffer without a limit of its own. -/
theorem Fits.fillRow_eq (h : s.Fits) {b : Buffer} (hlimit : b.limit = Record.maxLength)
    (value : Bytes) (seed : UInt64) :
    ∃ filled last, s.fillRow b value seed = ⟨⟨filled, last, .ok (.ok ())⟩, s.rowEvents⟩ ∧
      filled.Holds ⟨Record.maxLength, s.row seed⟩ :=
  hlimit ▸ h.fillRow_admitted (hlimit.symm ▸ h.admittedBy) value seed

/-- **One field is filled in whatever the buffer held before**, if the buffer admits it. -/
theorem Fits.fillField_admitted (h : s.Fits) {b : Buffer} (hlimit : s.AdmittedBy b.limit)
    {place : Nat} {name : String} (hplace : s.names[place]? = some name) (seed : UInt64) :
    ∃ filled, (s.fillField b place seed).value = ⟨filled, s.value seed, .ok (.ok ())⟩ ∧
      filled.Holds ⟨b.limit, [⟨Utf8.ofText name, s.value seed⟩]⟩ := by
  let field : Field := ⟨Utf8.ofText name, s.value seed⟩
  have hclear : b.clear.value.Holds ⟨b.limit, []⟩ := Buffer.holds_clear (r := ⟨b.limit, []⟩) rfl
  have hmem : name ∈ s.names := List.mem_of_getElem? hplace
  have hvalue : field.value.length = s.valueLength := s.length_value seed
  have hfits : field.Fits := by
    refine ⟨Nat.lt_succ_of_le (h.name_le name hmem), ?_⟩
    rw [hvalue]
    exact Nat.lt_succ_of_le h.value_le
  have happend : Row.append ⟨b.limit, []⟩ field = .ok ⟨b.limit, [field]⟩ :=
    Row.append_eq_ok.2 ⟨hlimit.name_le name hmem, hvalue ▸ hlimit.value_le,
      show 0 < Record.maxLength by decide, rfl⟩
  obtain ⟨filled, hfilled, hholds⟩ :=
    (happend ▸ Buffer.agree_append hclear (hfits.writableUnder b.limit)).of_granted
  refine ⟨filled, ?_, hholds⟩
  unfold fillField
  rw [h.makeValue, hplace, Metered.value_bind]
  dsimp only
  rw [Metered.value_bind, Checked.value_run, hfilled]
  rfl

end Schema

end FieldRecords
