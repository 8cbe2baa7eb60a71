import Std.Data.String.ToNat
import FieldRecords.Workload.Bench
import FieldRecords.Proofs.GeneratedRows
import FieldRecords.Proofs.Updates

/-!
# Generated rows under generated updates

The names of a schema are its stem with the numbers from zero on. Different numbers have different
decimal digits, so **the names are distinct** (`Schema.numbered_injective`), and a number of 64 bits
has twenty digits at most, so a row has no more bytes than it is given room for.

A row is told by its values alone (`Schema.rowWith`). A change brings one field or all of them anew
(`Schema.Change`); laid over a row, it changes the values that it names and nothing else
(`Schema.overlay_fields`). So one revision, a change that is built and merged in whatever buffers,
leaves a row of the same schema (`Schema.Fits.revise_eq`), and **any number of revisions leaves the
row in which each field has its last value** (`Schema.Fits.foldlM_revise`).
-/

namespace FieldRecords

/-! ## 1. Names -/

namespace Utf8

theorem ofText_injective {a b : String} (h : ofText a = ofText b) : a = b := by
  have ha := toText?_eq_some_iff.2 h
  have hb := toText?_eq_some_iff.2 (rfl : ofText b = ofText b)
  exact Option.some.inj (ha.symm.trans hb)

theorem length_ofText (text : String) : (ofText text).length = text.utf8ByteSize := by
  rw [ofText_eq]
  exact String.size_toByteArray

/-- Each digit takes one byte. -/
theorem utf8ByteSize_of_digits {digits : List Char} (h : ∀ c ∈ digits, c.isDigit = true) :
    (String.ofList digits).utf8ByteSize = digits.length := by
  induction digits with
  | nil => rfl
  | cons c digits ih =>
    have hdigit := Char.isDigit_iff_toNat.1 (h c List.mem_cons_self)
    have hsize : c.utf8Size = 1 := by
      rw [Char.utf8Size_eq_one_iff, UInt32.le_iff_toNat_le]
      exact Nat.le_trans hdigit.2 (by decide)
    rw [String.ofList_cons, String.utf8ByteSize_append, String.utf8ByteSize_singleton, hsize,
      ih fun d hd => h d (List.mem_cons_of_mem _ hd), List.length_cons, Nat.add_comm]

/-- **A number of 64 bits has twenty digits at most.** -/
theorem utf8ByteSize_toString_le {n : Nat} (h : n < 18446744073709551616) :
    (toString n).utf8ByteSize ≤ 20 := by
  have hdigits : ∀ c ∈ Nat.toDigits 10 n, c.isDigit = true := fun c hc =>
    Nat.isDigit_of_mem_toDigits (by decide) (by decide) hc
  show (String.ofList (Nat.toDigits 10 n)).utf8ByteSize ≤ 20
  rw [utf8ByteSize_of_digits hdigits, Nat.length_toDigits_le_iff (by decide) (by decide)]
  exact Nat.lt_trans h (by decide)

end Utf8

/-- **Different numbers make different names.** -/
theorem Schema.numbered_injective (stem : String) {i j : Nat}
    (h : Utf8.ofText (stem ++ toString i) = Utf8.ofText (stem ++ toString j)) : i = j :=
  Nat.repr_injective ((String.append_right_inj stem).1 (Utf8.ofText_injective h))

/-! ## 2. Rows of the same names -/

namespace Record

/-- **A row whose names are all in the update, in the same order, is overlaid by the update alone.**
    Fields in front of both have other names. -/
theorem overlay_same_names {before row update : List Field}
    (hdistinct : ((before ++ row).map Field.name).Nodup)
    (hnames : row.map Field.name = update.map Field.name) :
    overlay (before ++ row) update = before ++ update := by
  induction update generalizing before row with
  | nil =>
    rw [List.map_nil, List.map_eq_nil_iff] at hnames
    rw [hnames, overlay_nil]
  | cons f update ih =>
    obtain ⟨g, row, rfl⟩ : ∃ g rest, row = g :: rest := by
      cases row with
      | nil => cases hnames
      | cons g rest => exact ⟨g, rest, rfl⟩
    obtain ⟨hg, hnames⟩ := List.cons.inj hnames
    have hbefore : ∀ h ∈ before, h.name ≠ f.name := by
      intro h hh hsame
      rw [List.map_append, List.nodup_append] at hdistinct
      exact hdistinct.2.2 _ (List.mem_map_of_mem hh) _ List.mem_cons_self (hsame.trans hg.symm)
    have hfield : (⟨g.name, f.value⟩ : Field) = f := by rw [hg]
    have hdone : (((before ++ [f]) ++ row).map Field.name).Nodup := by
      simpa [hg] using hdistinct
    rw [overlay_cons, put_of_first hbefore hg, hfield, List.append_cons, ih hdone hnames,
      List.append_assoc]
    rfl

/-- Fields that each take no more than `most` bytes. -/
theorem size_le {fields : List Field} {most : Nat}
    (h : ∀ f ∈ fields, 8 + f.name.length + f.value.length ≤ most) :
    size fields ≤ 4 + fields.length * most := by
  induction fields with
  | nil => exact Nat.le_add_right 4 _
  | cons f fields ih =>
    have hf := h f List.mem_cons_self
    have hrest := ih fun g hg => h g (List.mem_cons_of_mem _ hg)
    rw [size, List.length_cons, Nat.succ_mul]
    omega

end Record

namespace Schema

variable {s : Schema}

/-- Fields of these names, with these values. -/
def fieldsWith (names : List String) (values : Nat → Bytes) : List Field :=
  names.mapIdx fun i name => ⟨Utf8.ofText name, values i⟩

/-- **The row with these values.** -/
def rowWith (s : Schema) (values : Nat → Bytes) : List Field := fieldsWith s.names values

/-- No name is repeated. -/
def Distinct (s : Schema) : Prop := (s.names.map Utf8.ofText).Nodup

theorem row_eq_rowWith (s : Schema) (seed : UInt64) :
    s.row seed = s.rowWith fun i => s.value (seed + i.toUInt64) := rfl

theorem fieldsWith_cons (name : String) (names : List String) (values : Nat → Bytes) :
    fieldsWith (name :: names) values =
      ⟨Utf8.ofText name, values 0⟩ :: fieldsWith names fun i => values (i + 1) := by
  simp only [fieldsWith, List.mapIdx_cons]

theorem map_name_fieldsWith (names : List String) (values : Nat → Bytes) :
    (fieldsWith names values).map Field.name = names.map Utf8.ofText := by
  induction names generalizing values with
  | nil => rfl
  | cons name names ih => rw [fieldsWith_cons, List.map_cons, ih, List.map_cons]

theorem mem_fieldsWith {names : List String} {values : Nat → Bytes} {f : Field}
    (h : f ∈ fieldsWith names values) :
    ∃ i name, name ∈ names ∧ f = ⟨Utf8.ofText name, values i⟩ := by
  obtain ⟨i, hi, rfl⟩ := List.mem_mapIdx.1 h
  exact ⟨i, names[i], List.getElem_mem hi, rfl⟩

/-- Fields take as many bytes as others whose values are as long. -/
theorem size_fieldsWith_congr (names : List String) {values others : Nat → Bytes}
    (h : ∀ i, (values i).length = (others i).length) :
    Record.size (fieldsWith names values) = Record.size (fieldsWith names others) := by
  induction names generalizing values others with
  | nil => rfl
  | cons name names ih =>
    rw [fieldsWith_cons, fieldsWith_cons, Record.size, Record.size, ih fun i => h (i + 1)]
    simp only [h 0]

/-- **A field that is laid over a row gives its value to the field of its place**, and to no
    other. -/
theorem put_fieldsWith {names : List String} (hdistinct : (names.map Utf8.ofText).Nodup)
    {place : Nat} {name : String} (hplace : names[place]? = some name) (values : Nat → Bytes)
    (value : Bytes) :
    Record.put (fieldsWith names values) ⟨Utf8.ofText name, value⟩ =
      fieldsWith names fun i => if i = place then value else values i := by
  induction names generalizing place values with
  | nil => cases hplace
  | cons first names ih =>
    obtain ⟨hfirst, hdistinct⟩ := List.nodup_cons.1 hdistinct
    rw [fieldsWith_cons, fieldsWith_cons]
    cases place with
    | zero =>
      cases hplace
      rw [Record.put, if_pos rfl]
      rfl
    | succ place =>
      have hmem : name ∈ names := List.mem_of_getElem? hplace
      have hother : ¬ Utf8.ofText first = Utf8.ofText name := by
        intro hsame
        exact hfirst (hsame ▸ List.mem_map_of_mem hmem)
      rw [Record.put, if_neg hother, ih hdistinct hplace, if_neg (Nat.succ_ne_zero place).symm]
      simp only [Nat.succ_inj]

/-- The same fields, listed by their numbers. -/
theorem fieldsWith_map_range (f : Nat → String) (n : Nat) (values : Nat → Bytes) :
    fieldsWith ((List.range n).map f) values =
      (List.range n).map fun i => ⟨Utf8.ofText (f i), values i⟩ := by
  refine List.ext_getElem (by simp [fieldsWith]) fun i _ _ => ?_
  simp [fieldsWith]

/-! ## 3. Changes -/

/-- **What is brought anew in a row**: one field, or all of them. -/
inductive Change where
  | field (place : Nat) (seed : UInt64)
  | row (seed : UInt64)

namespace Change

/-- The place is one of the schema's. -/
def InRange (s : Schema) : Change → Prop
  | field place _ => place < s.names.length
  | row _ => True

/-- Builds the change in a buffer. -/
def fill (s : Schema) (b : Buffer) (held : Bytes) : Change → Metered Filled
  | field place seed => s.fillField b place seed
  | row seed => s.fillRow b held seed

/-- The fields that are built. -/
def fields (s : Schema) : Change → List Field
  | field place seed => s.names[place]?.toList.map fun name => ⟨Utf8.ofText name, s.value seed⟩
  | row seed => s.row seed

/-- The value that a change gives to the field of a place, if it names it. -/
def value? (s : Schema) : Change → Nat → Option Bytes
  | field place seed, i => if i = place then some (s.value seed) else none
  | row seed, i => some (s.value (seed + i.toUInt64))

/-- The values of a row after a change. -/
def onto (s : Schema) (c : Change) (values : Nat → Bytes) (i : Nat) : Bytes :=
  (c.value? s i).getD (values i)

variable {c : Change}

/-- Values that are brought anew are as long as the schema says. -/
theorem length_onto {values : Nat → Bytes} (h : ∀ i, (values i).length = s.valueLength) (i : Nat) :
    (c.onto s values i).length = s.valueLength := by
  unfold onto
  cases c with
  | field place seed =>
    rw [value?]
    split
    · exact s.length_value seed
    · exact h i
  | row seed => exact s.length_value _

/-- A change has names of the schema and values of the schema's length. -/
theorem mem_fields {f : Field} (h : f ∈ c.fields s) :
    f.name ∈ s.names.map Utf8.ofText ∧ f.value.length = s.valueLength := by
  cases c with
  | field place seed =>
    obtain ⟨name, hname, rfl⟩ := List.mem_map.1 h
    have hplace := Option.mem_toList.1 hname
    exact ⟨List.mem_map_of_mem (List.mem_of_getElem? hplace), s.length_value seed⟩
  | row seed =>
    obtain ⟨i, name, hname, rfl⟩ := mem_fieldsWith h
    exact ⟨List.mem_map_of_mem hname, s.length_value _⟩

end Change

/-- **A change that is laid over a row changes the values that it names**, and nothing else. -/
theorem overlay_fields (hdistinct : s.Distinct) {c : Change} (hrange : c.InRange s)
    (values : Nat → Bytes) :
    Record.overlay (s.rowWith values) (c.fields s) = s.rowWith (c.onto s values) := by
  cases c with
  | field place seed =>
    have hplace : s.names[place]? = some s.names[place] := List.getElem?_eq_getElem hrange
    have hvalues : Change.onto s (.field place seed) values =
        fun i => if i = place then s.value seed else values i := by
      funext i
      rw [Change.onto, Change.value?]
      split <;> rfl
    rw [Change.fields, hplace, hvalues]
    exact put_fieldsWith hdistinct hplace values (s.value seed)
  | row seed =>
    have hnames : (s.rowWith values).map Field.name = (s.row seed).map Field.name := by
      rw [row_eq_rowWith, rowWith, rowWith, map_name_fieldsWith, map_name_fieldsWith]
    have hrow : ([] ++ s.rowWith values).map Field.name = s.names.map Utf8.ofText :=
      map_name_fieldsWith _ _
    exact @Record.overlay_same_names [] _ _ (hrow.symm ▸ hdistinct) hnames

/-! ## 4. Revisions -/

/-- **A change together with the buffers it goes through**, whatever they hold: the one it is built
    in, with the value that is made last, and the one that the result is written to. -/
structure Revision where
  change : Change
  row : Buffer
  held : Bytes
  out : Buffer

/-- The change is one of the schema's, and the limits of the buffers admit what it brings. -/
structure Revision.Admitted (s : Schema) (r : Revision) : Prop where
  inRange : r.change.InRange s
  row_limit : s.AdmittedBy r.row.limit
  out_limit : s.valueLength ≤ r.out.limit

/-- **Builds a change and merges it into a row.** `none` if it is not built or not merged. -/
def revise (s : Schema) (base : View) (r : Revision) : Option View :=
  let filled := (r.change.fill s r.row r.held).value
  match filled.outcome with
  | .ok (.ok ()) =>
    let edited := (mergeInto base filled.row.view r.out).value
    match edited.outcome with
    | .ok () => some edited.buffer.view
    | .error _ => none
  | _ => none

/-- The values of a row after revisions: each field has that of the last one that names it, and the
    one it had if there is none. -/
def revised (s : Schema) (revisions : List Revision) (values : Nat → Bytes) (i : Nat) : Bytes :=
  (revisions.reverse.findSome? fun r => r.change.value? s i).getD (values i)

theorem revised_cons (r : Revision) (revisions : List Revision) (values : Nat → Bytes) :
    s.revised (r :: revisions) values = s.revised revisions (r.change.onto s values) := by
  funext i
  rw [revised, revised, List.reverse_cons, List.findSome?_append, Change.onto]
  cases revisions.reverse.findSome? fun r => r.change.value? s i with
  | some value => rfl
  | none => simp

theorem length_revised {values : Nat → Bytes} (h : ∀ i, (values i).length = s.valueLength)
    (revisions : List Revision) (i : Nat) :
    (s.revised revisions values i).length = s.valueLength := by
  induction revisions generalizing values with
  | nil => exact h i
  | cons r revisions ih =>
    rw [revised_cons]
    exact ih (Change.length_onto h)

/-- A change that is built is the written form of its fields. -/
theorem Fits.fill_eq (h : s.Fits) {c : Change} (hrange : c.InRange s) {b : Buffer}
    (hlimit : s.AdmittedBy b.limit) (held : Bytes) :
    (c.fill s b held).value.outcome = .ok (.ok ()) ∧
      Record.Written (c.fill s b held).value.row.bytes (c.fields s) := by
  cases c with
  | field place seed =>
    have hplace : s.names[place]? = some s.names[place] := List.getElem?_eq_getElem hrange
    obtain ⟨filled, hfilled, hholds⟩ := h.fillField_admitted hlimit hplace seed
    rw [Change.fill, Change.fields, hfilled, hplace]
    exact ⟨rfl, hholds.written⟩
  | row seed =>
    obtain ⟨filled, last, hfilled, hholds⟩ := h.fillRow_admitted hlimit held seed
    rw [Change.fill, hfilled]
    exact ⟨rfl, hholds.written⟩

/-- A row has all names that a change can have. -/
theorem has_rowWith {name : Bytes} (h : name ∈ s.names.map Utf8.ofText) (values : Nat → Bytes) :
    Record.Has (s.rowWith values) name := by
  rw [← map_name_fieldsWith s.names values] at h
  obtain ⟨f, hf, rfl⟩ := List.mem_map.1 h
  exact Record.has_of_mem hf

/-- **One revision of a row is granted and leaves a row of the same schema**, in which the fields
    that it names have their new values. -/
theorem Fits.revise_eq (h : s.Fits) (hdistinct : s.Distinct) {base : View} {values : Nat → Bytes}
    (hbase : Record.Written base.bytes (s.rowWith values)) {r : Revision} (hr : r.Admitted s) :
    ∃ v, s.revise base r = some v ∧
      Record.Written v.bytes (s.rowWith (r.change.onto s values)) := by
  obtain ⟨hfilled, hwritten⟩ := h.fill_eq hr.inRange hr.row_limit r.held
  have hmerged :
      (mergeInto base (r.change.fill s r.row r.held).value.row.view r.out).value.outcome =
        .ok () := by
    rw [outcome_mergeInto hbase hwritten]
    refine Row.layAll_of_has (fun f hf => ?_) fun f hf => ?_
    · exact has_rowWith (Change.mem_fields hf).1 values
    · rw [(Change.mem_fields hf).2]
      exact hr.out_limit
  have hleft := (holds_mergeInto_granted hbase hwritten hmerged).written
  rw [overlay_fields hdistinct hr.inRange] at hleft
  refine ⟨(mergeInto base (r.change.fill s r.row r.held).value.row.view r.out).value.buffer.view,
    ?_, hleft⟩
  unfold revise
  simp only [hfilled, hmerged]

/-- **Any number of revisions is granted and leaves the row with the last values.** -/
theorem Fits.foldlM_revise (h : s.Fits) (hdistinct : s.Distinct) {base : View}
    {values : Nat → Bytes} (hbase : Record.Written base.bytes (s.rowWith values))
    {revisions : List Revision} (hrevisions : ∀ r ∈ revisions, r.Admitted s) :
    ∃ v, revisions.foldlM s.revise base = some v ∧
      Record.Written v.bytes (s.rowWith (s.revised revisions values)) := by
  induction revisions generalizing base values with
  | nil => exact ⟨base, rfl, hbase⟩
  | cons r revisions ih =>
    obtain ⟨next, hnext, hwritten⟩ := h.revise_eq hdistinct hbase (hrevisions r List.mem_cons_self)
    obtain ⟨v, hv, hlast⟩ := ih hwritten fun other hother =>
      hrevisions other (List.mem_cons_of_mem _ hother)
    rw [revised_cons]
    refine ⟨v, ?_, hlast⟩
    rw [List.foldlM_cons, hnext]
    exact hv

/-! ## 5. Rows of a schema that was made -/

/-- The letters of a value are small ones. -/
theorem letter_bounds (bits : UInt64) (place : Nat) :
    97 ≤ letter bits place ∧ letter bits place ≤ 122 := by
  unfold letter
  generalize (bits >>> (place % 8).toUInt64).toUInt8 = n
  have hmod : (n % 26).toNat < 26 := by
    rw [UInt8.toNat_mod]
    exact Nat.mod_lt _ (by decide)
  rw [UInt8.le_iff_toNat_le, UInt8.le_iff_toNat_le, UInt8.toNat_add]
  show 97 ≤ (97 + (n % 26).toNat) % 256 ∧ (97 + (n % 26).toNat) % 256 ≤ 122
  omega

theorem letters_of_value {seed : UInt64} {b : UInt8} (h : b ∈ s.value seed) :
    97 ≤ b ∧ b ≤ 122 := by
  obtain ⟨place, -, rfl⟩ := List.mem_map.1 h
  exact letter_bounds _ _

/-- There is room for a value that can be written, whatever was held before. -/
theorem Fits.fillValue (h : s.Fits) (seed : UInt64) :
    s.fillValue seed = (s.value seed, .ok ()) := by
  rw [Schema.fillValue, h.makeValue]

/-- The schema that is made of a stem. -/
def numbered (stem : String) (fieldCount valueLength : Nat) : Schema :=
  ⟨(List.range fieldCount).map fun i => stem ++ toString i, valueLength⟩

/-- The fields with the first numbers, in their order, with these values. -/
def numberedWith (stem : String) (fieldCount : Nat) (values : Nat → Bytes) : List Field :=
  (List.range fieldCount).map fun i => ⟨Utf8.ofText (stem ++ toString i), values i⟩

section Numbered

variable {stem : String} {fieldCount valueLength : Nat}

/-- **A schema is made of as many fields as a row can have.** -/
theorem create_numbered (stem : String) (valueLength : Nat) (hpositive : 0 < fieldCount)
    (hcount : fieldCount ≤ Record.maxLength) :
    create stem fieldCount valueLength = .ok (numbered stem fieldCount valueLength) := by
  have hroom : fieldCount * Room.perText ≤ Room.maxBytes := by
    simp only [Record.maxLength, Room.perText, Room.maxBytes] at hcount ⊢
    omega
  exact create_eq_ok.2 ⟨Nat.ne_of_gt hpositive, hroom, rfl⟩

theorem fits_numbered (hcount : fieldCount ≤ Record.maxLength)
    (hvalue : valueLength ≤ Record.maxLength)
    (hname : ∀ i < fieldCount, (Utf8.ofText (stem ++ toString i)).length ≤ Record.maxLength) :
    (numbered stem fieldCount valueLength).Fits := by
  refine ⟨?_, fun name hmem => ?_, hvalue⟩
  · rwa [numbered, List.length_map, List.length_range]
  · obtain ⟨i, hi, rfl⟩ := List.mem_map.1 hmem
    exact hname i (List.mem_range.1 hi)

theorem distinct_numbered (stem : String) (fieldCount valueLength : Nat) :
    (numbered stem fieldCount valueLength).Distinct := by
  rw [Distinct, numbered, List.map_map]
  exact List.Pairwise.map _ (fun i j hne hsame => hne (numbered_injective stem hsame))
    List.nodup_range

theorem rowWith_numbered (values : Nat → Bytes) :
    (numbered stem fieldCount valueLength).rowWith values = numberedWith stem fieldCount values :=
  fieldsWith_map_range (fun i : Nat => stem ++ toString i) fieldCount values

/-- A name is the stem and twenty digits at most. -/
theorem length_numbered_le (stem : String) {i : Nat} (h : i < 18446744073709551616) :
    (Utf8.ofText (stem ++ toString i)).length ≤ stem.utf8ByteSize + 20 := by
  rw [Utf8.length_ofText, String.utf8ByteSize_append]
  exact Nat.add_le_add_left (Utf8.utf8ByteSize_toString_le h) _

/-- So the fields take no more bytes than they are given room for. -/
theorem size_numberedWith_le {values : Nat → Bytes} (hcount : fieldCount ≤ Record.maxLength)
    (hvalues : ∀ i, (values i).length = valueLength) :
    Record.size (numberedWith stem fieldCount values) ≤
      4 + fieldCount * (8 + stem.utf8ByteSize + 20 + valueLength) := by
  have hfields : ∀ f ∈ numberedWith stem fieldCount values,
      8 + f.name.length + f.value.length ≤ 8 + stem.utf8ByteSize + 20 + valueLength := by
    intro f hf
    obtain ⟨i, hi, rfl⟩ := List.mem_map.1 hf
    have hnumber : i < 18446744073709551616 :=
      Nat.lt_trans (Nat.lt_of_lt_of_le (List.mem_range.1 hi) hcount) (by decide)
    have hname := length_numbered_le stem hnumber
    have hvalue := hvalues i
    dsimp only
    omega
  have hsize := Record.size_le hfields
  rwa [numberedWith, List.length_map, List.length_range] at hsize

end Numbered

end Schema

/-- **The room for a row is what its fields can take**, unless the sum wraps. -/
theorem Bench.initialCapacity_codecConfig {c : BenchConfig} {fieldCount valueLength : Nat}
    (hcount : UInt64.toNat c.fieldCount = fieldCount)
    (hvalue : UInt64.toNat c.fieldLength = valueLength)
    (hroom : 4 + fieldCount * (8 + c.fieldStem.utf8ByteSize + 20 + valueLength) <
      18446744073709551616) :
    (codecConfig c).initialCapacity =
      4 + fieldCount * (8 + c.fieldStem.utf8ByteSize + 20 + valueLength) := by
  subst hcount hvalue
  have hsum : rowSize c = UInt64.ofNat (4 + UInt64.toNat c.fieldCount *
      (8 + c.fieldStem.utf8ByteSize + 20 + UInt64.toNat c.fieldLength)) := by
    simp only [UInt64.ofNat_add, UInt64.ofNat_mul, UInt64.ofNat_toNat]
    rfl
  show (rowSize c).toNat = _
  rw [hsum, UInt64.toNat_ofNat_of_lt' hroom]

/-- **Generated rows keep their layout.** A schema with a stem, a number of fields and a length of
    values that can be written is made, and different fields of it have different names. Whatever a
    buffer and a value held before, filling the buffer with the row of a seed leaves the written
    form of the fields `stem0`, `stem1`, …, with the values that are made of the seed and the
    numbers behind it: small letters, as many as asked for. The row takes no more bytes than setting
    up gives it room for. Revising it any number of times, by one field or by all of them and in
    whatever buffers, leaves the written form of the same fields, in as many bytes; each field has
    the value of the last revision that names it, or else the one it had. -/
theorem generated_rows_keep_their_layout {stem : String} {fieldCount valueLength : Nat}
    (hpositive : 0 < fieldCount) (hcount : fieldCount ≤ Record.maxLength)
    (hvalue : valueLength ≤ Record.maxLength)
    (hname : ∀ i < fieldCount, (Utf8.ofText (stem ++ toString i)).length ≤ Record.maxLength) :
    let room := 4 + fieldCount * (8 + stem.utf8ByteSize + 20 + valueLength)
    (∀ i j : Nat, Utf8.ofText (stem ++ toString i) = Utf8.ofText (stem ++ toString j) → i = j) ∧
    (∀ c : BenchConfig, c.fieldStem = stem → UInt64.toNat c.fieldCount = fieldCount →
      UInt64.toNat c.fieldLength = valueLength → room < 18446744073709551616 →
        (Bench.codecConfig c).initialCapacity = room) ∧
    ∃ s, Schema.create stem fieldCount valueLength = .ok s ∧
      ∀ (b : Buffer) (held : Bytes) (seed : UInt64), s.AdmittedBy b.limit →
        let filled := (s.fillRow b held seed).value
        let initial := fun i : Nat => (s.fillValue (seed + i.toUInt64)).1
        filled.outcome = .ok (.ok ()) ∧
        Record.Written filled.row.bytes (Schema.numberedWith stem fieldCount initial) ∧
        filled.row.bytes.length ≤ room ∧
        (∀ i, (s.fillValue (seed + i.toUInt64)).2 = .ok () ∧ (initial i).length = valueLength ∧
          ∀ letter ∈ initial i, 97 ≤ letter ∧ letter ≤ 122) ∧
        ∀ revisions : List Schema.Revision, (∀ r ∈ revisions, r.Admitted s) →
          ∃ v, revisions.foldlM s.revise filled.row.view = some v ∧
            Record.Written v.bytes
              (Schema.numberedWith stem fieldCount (s.revised revisions initial)) ∧
            v.bytes.length = filled.row.bytes.length := by
  intro room
  let s := Schema.numbered stem fieldCount valueLength
  have hfits : s.Fits := Schema.fits_numbered hcount hvalue hname
  have hdistinct : s.Distinct := Schema.distinct_numbered stem fieldCount valueLength
  refine ⟨fun i j => Schema.numbered_injective stem, ?_, s,
    Schema.create_numbered stem valueLength hpositive hcount, ?_⟩
  · rintro c rfl hcounts hlengths hwraps
    exact Bench.initialCapacity_codecConfig hcounts hlengths hwraps
  · intro b held seed hlimit filled initial
    have hinitial : initial = fun i => s.value (seed + i.toUInt64) := by
      funext i
      exact congrArg Prod.fst (hfits.fillValue _)
    have hlength : ∀ i, (initial i).length = valueLength := by
      rw [hinitial]
      exact fun i => s.length_value _
    obtain ⟨row, last, hfill, hholds⟩ := hfits.fillRow_admitted hlimit held seed
    have hfilled : filled = ⟨row, last, .ok (.ok ())⟩ := congrArg Metered.value hfill
    have hwritten : Record.Written filled.row.bytes (s.rowWith initial) := by
      rw [hfilled, hinitial]
      exact hholds.written
    refine ⟨?_, ?_, ?_, fun i => ⟨?_, hlength i, fun letter hletter => ?_⟩,
      fun revisions hrevisions => ?_⟩
    · rw [hfilled]
    · exact Schema.rowWith_numbered initial ▸ hwritten
    · rw [hwritten.length_eq, Schema.rowWith_numbered]
      exact Schema.size_numberedWith_le hcount hlength
    · rw [hfits.fillValue]
    · rw [hinitial] at hletter
      exact Schema.letters_of_value hletter
    · obtain ⟨v, hv, hlast⟩ := hfits.foldlM_revise hdistinct hwritten hrevisions
      refine ⟨v, hv, Schema.rowWith_numbered (s.revised revisions initial) ▸ hlast, ?_⟩
      rw [hlast.length_eq, hwritten.length_eq]
      exact Schema.size_fieldsWith_congr s.names fun i =>
        (Schema.length_revised hlength revisions i).trans (hlength i).symm

/-- Two fields of three letters, filled in where no record stood; the second number wraps. Then the
    whole row is brought anew, and its second field twice more. -/
theorem layout_after_three_revisions :
    let s := Schema.numbered "field" 2 3
    let b : Buffer := ⟨[7], 6, 0⟩
    let revisions : List Schema.Revision :=
      [⟨.row 5, b, [1], b⟩, ⟨.field 1 8, b, [], b⟩, ⟨.field 1 9, b, [2, 3], b⟩]
    let first : List Field :=
      [⟨Utf8.ofText "field0", Utf8.ofText "hos"⟩, ⟨Utf8.ofText "field1", Utf8.ofText "aaa"⟩]
    let last : List Field :=
      [⟨Utf8.ofText "field0", Utf8.ofText "nep"⟩, ⟨Utf8.ofText "field1", Utf8.ofText "fan"⟩]
    let row := (s.fillRow b [4] 18446744073709551615).value.row
    Record.Written row.bytes first ∧
      ∃ v, revisions.foldlM s.revise row.view = some v ∧ Record.Written v.bytes last ∧
        v.bytes.length = row.bytes.length := by
  intro s b revisions first last row
  have hname : ∀ i < 2, (Utf8.ofText ("field" ++ toString i)).length ≤ 6 := by decide +kernel
  have hwide : ∀ i < 2, (Utf8.ofText ("field" ++ toString i)).length ≤ Record.maxLength :=
    fun i hi => Nat.le_trans (hname i hi) (by decide)
  have hlimit : s.AdmittedBy b.limit := ⟨by decide +kernel, by decide⟩
  have hrevisions : ∀ r ∈ revisions, r.Admitted s := by
    intro r hr
    obtain rfl | rfl | rfl : r = _ ∨ r = _ ∨ r = _ := by simpa [revisions] using hr
    · exact ⟨trivial, hlimit, by decide⟩
    · exact ⟨show 1 < 2 by decide, hlimit, by decide⟩
    · exact ⟨show 1 < 2 by decide, hlimit, by decide⟩
  have hfirst : Schema.numberedWith "field" 2
      (fun i => (s.fillValue (18446744073709551615 + i.toUInt64)).1) = first := by decide +kernel
  have hlast : Schema.numberedWith "field" 2 (s.revised revisions
      fun i => (s.fillValue (18446744073709551615 + i.toUInt64)).1) = last := by decide +kernel
  have hmade : Schema.create "field" 2 3 = .ok s :=
    Schema.create_numbered "field" 3 (by decide) (by decide)
  -- the schema is known by its equation from here on
  clear_value s revisions first last
  obtain ⟨-, -, made, hcreate, hrows⟩ :=
    @generated_rows_keep_their_layout "field" 2 3 (by decide) (by decide) (by decide) hwide
  obtain rfl : made = s := Except.ok.inj (hcreate.symm.trans hmade)
  obtain ⟨-, hrow, -, -, hrevised⟩ := hrows b [4] 18446744073709551615 hlimit
  obtain ⟨v, hv, hwritten, hlength⟩ := hrevised revisions hrevisions
  exact ⟨hfirst ▸ hrow, v, hv, hlast ▸ hwritten, hlength⟩

end FieldRecords
