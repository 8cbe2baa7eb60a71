import FieldRecords.Proofs.Verdicts

/-!
# Lookups stop where they find something

Whoever looks up a name goes through the entries that a walk yields, and stops at the first one of
the name; only if there is none does the fault count that the walk meets behind them
(`View.search`, `View.locate?_eq`). What was found closes a front of the bytes (`Entry.Closes`):
the count, fields of other names, fewer than the count says, and the field itself. **A name is
found at an entry exactly if the entry closes a front of the bytes** (`View.locate?_iff`), so what
follows the entry can be cut off, broken or exchanged, and the answer stays
(`lookups_find_first_entry`).
-/

namespace FieldRecords

/-! ## 1. The first entry of a name -/

namespace View

/-- **What a search comes to that meets these entries, and then perhaps a fault**: the first entry
    of the name, and if there is none the fault, which is counted then. -/
def search (name : Bytes) (met : List Entry) (fault : Option CodecError) :
    Checked (Option Entry) :=
  match met.find? fun e => e.name == name with
  | some e => pure (some e)
  | none =>
    match fault with
    | none => pure none
    | some error => do
      Metered.count .decodeError
      throw error

/-- A name is searched among the entries that the view holds. -/
theorem locate?_eq_search (v : View) (name : Bytes) :
    v.locate? name = search name (Record.entries 4 v.contents.fields) v.contents.fault := by
  rw [locate?, Walk.find?_eq, entries_walk, contents_walk]
  unfold search Contents.conclude
  cases (Record.entries 4 v.contents.fields).find? fun e => e.name == name with
  | some e => rfl
  | none => cases v.contents.fault <;> rfl

/-- **A lookup goes through what a walk yields**, however far beyond its end the walk is stepped. -/
theorem locate?_eq (v : View) (name : Bytes) {n : Nat} (hn : v.length < n) :
    v.locate? name = search name (v.walk.yielded n) (v.walk.faults n).head? := by
  obtain ⟨hyielded, hfaults⟩ := Walk.yielded_faults_eq (w := v.walk) hn
  rw [locate?_eq_search, hyielded, hfaults, entries_walk, contents_walk, Option.head?_toList]

/-- **A search that finds an entry finds the first one of the name**, and reports nothing. -/
theorem search_found {name : Bytes} {met : List Entry} {fault : Option CodecError} {e : Entry} :
    (search name met fault).answer = .ok (some e) ↔
      met.find? (fun e => e.name == name) = some e := by
  unfold search
  cases met.find? fun e => e.name == name with
  | some found => simp
  | none =>
    cases fault with
    | none => simp
    | some error => exact ⟨fun h => (nomatch h), fun h => (nomatch h)⟩

end View

/-! ## 2. What is needed to find an entry -/

/-- **The entry closes these bytes**: they are a count, fields of other names, fewer than the count
    says, and the field, where the entry stands. -/
structure Entry.Closes (e : Entry) (front : Bytes) (count : Nat) (before : List Field) : Prop where
  bytes_eq : front = Bytes.u32 count ++ (before.flatMap Field.encode ++ e.field.encode)
  start_eq : e.start = 4 + (before.flatMap Field.encode).length
  count_fits : count < 4294967296
  declared : before.length < count
  others : ∀ f ∈ before, f.Fits ∧ f.name ≠ e.name
  fits : e.field.Fits

/-- Where the entry ends, the bytes end that it closes. -/
theorem Entry.Closes.length_eq {e : Entry} {front : Bytes} {count : Nat} {before : List Field}
    (h : e.Closes front count before) : front.length = e.valueEnd := by
  rw [h.bytes_eq, valueEnd_eq, h.start_eq, List.length_append, List.length_append,
    Bytes.length_u32, Nat.add_assoc]

theorem Entry.Closes.header {e : Entry} {front : Bytes} {count : Nat} {before : List Field}
    (h : e.Closes front count before) : 4 ≤ front.length := by
  rw [h.bytes_eq, List.length_append, Bytes.length_u32]
  exact Nat.le_add_right 4 _

/-- A part between two others stands where the first of them ends. -/
theorem Bytes.extract_of_eq {bs part : Bytes} {start stop : Nat} (before after : Bytes)
    (hbs : bs = before ++ (part ++ after)) (hstart : start = before.length)
    (hstop : stop = start + part.length) : bs.extract start stop = part := by
  subst hbs hstart hstop
  simp [List.extract_eq_take_drop]

/-- **The name and the value of an entry stand at its offsets**, whatever follows. -/
theorem Entry.Closes.extract_eq {e : Entry} {front : Bytes} {count : Nat} {before : List Field}
    (h : e.Closes front count before) {bytes : Bytes} (hfront : front <+: bytes) :
    bytes.extract e.nameStart e.nameEnd = e.name ∧
      bytes.extract e.valueStart e.valueEnd = e.value := by
  obtain ⟨tail, rfl⟩ := hfront
  have hparted : front ++ tail =
      Bytes.u32 count ++ before.flatMap Field.encode ++ Bytes.u32 e.name.length ++
        (e.name ++ (Bytes.u32 e.value.length ++ (e.value ++ tail))) := by
    simp only [h.bytes_eq, Field.encode, field, List.append_assoc]
  have hnameStart : e.nameStart =
      (Bytes.u32 count ++ before.flatMap Field.encode ++ Bytes.u32 e.name.length).length := by
    simp only [nameStart, h.start_eq, List.length_append, Bytes.length_u32]
  refine ⟨Bytes.extract_of_eq _ _ hparted hnameStart rfl, ?_⟩
  refine Bytes.extract_of_eq (Bytes.u32 count ++ before.flatMap Field.encode ++
    Bytes.u32 e.name.length ++ (e.name ++ Bytes.u32 e.value.length)) tail ?_ ?_ rfl
  · rw [hparted]
    simp only [List.append_assoc]
  · rw [valueStart, nameEnd, hnameStart]
    simp only [List.length_append, Bytes.length_u32, Nat.add_assoc]

/-- Behind fields of other names the first entry of a name is the field that follows them. -/
theorem Record.find?_entries_append (start : Nat) {before : List Field} {f : Field}
    (h : ∀ g ∈ before, g.name ≠ f.name) (after : List Field) :
    (entries start (before ++ f :: after)).find? (fun e => e.name == f.name) =
      some ⟨start + (before.flatMap Field.encode).length, f.name, f.value⟩ := by
  induction before generalizing start with
  | nil => simp [entries]
  | cons g before ih =>
    have hg : g.name ≠ f.name := h g List.mem_cons_self
    have hrest := ih (start + g.encode.length) fun g hg => h g (List.mem_cons_of_mem _ hg)
    rw [List.cons_append, entries, List.find?_cons_of_neg (by simpa using hg), hrest,
      List.flatMap_cons, List.length_append, Nat.add_assoc]

namespace View

variable {v : View} {name : Bytes} {e : Entry} {front : Bytes} {count : Nat} {before : List Field}

/-- **A field that is declared is found in front of anything**, if no field before it has its
    name. -/
theorem locate?_of_closes (h : e.Closes front count before) (hfront : front <+: v.bytes) :
    v.locate? e.name = pure (some e) := by
  obtain ⟨tail, hbytes⟩ := hfront
  obtain ⟨later, hcount⟩ := Nat.exists_eq_add_of_lt h.declared
  have hfits : ∀ f ∈ before ++ [e.field], f.Fits := by
    intro f hf
    rcases List.mem_append.1 hf with hf | hf
    · exact (h.others f hf).1
    · rw [List.mem_singleton.1 hf]
      exact h.fits
  have hv : v.bytes =
      Bytes.u32 count ++ ((before ++ [e.field]).flatMap Field.encode ++ tail) := by
    rw [← hbytes, h.bytes_eq]
    simp
  obtain ⟨after, hfields⟩ : ∃ after, v.contents.fields = before ++ e.field :: after := by
    have hlength : count = (before ++ [e.field]).length + later := by
      rw [hcount, List.length_append, List.length_singleton]
      omega
    have hcontents := (congrArg (fun bytes => (mk bytes).contents) hv).trans
      (contents_u32_append h.count_fits _)
    rw [hlength, Contents.read_encode_append hfits] at hcontents
    exact ⟨_, (congrArg Contents.fields hcontents).trans (List.append_assoc before [e.field] _)⟩
  have hfound : (Record.entries 4 v.contents.fields).find? (fun other => other.name == e.name) =
      some e := by
    rw [hfields]
    have hbehind := Record.find?_entries_append 4 (f := e.field)
      (fun g hg => (h.others g hg).2) after
    rwa [← h.start_eq] at hbehind
  rw [locate?_eq_search]
  unfold search
  rw [hfound]

/-- The bytes of a view are its count and what follows. -/
theorem bytes_eq_u32_append (hheader : 4 ≤ v.bytes.length) :
    v.length < 4294967296 ∧ v.bytes = Bytes.u32 v.length ++ v.bytes.drop 4 := by
  unfold length
  cases hread : Bytes.readU32? v.bytes with
  | none =>
    have := Bytes.readU32?_eq_none_iff.1 hread
    omega
  | some read =>
    obtain ⟨count, rest⟩ := read
    obtain ⟨hcount, hbytes⟩ := Bytes.eq_u32_of_readU32? hread
    refine ⟨hcount, ?_⟩
    rw [hbytes]
    rfl

/-- **A name is found at an entry exactly if the entry closes a front of the bytes.** -/
theorem locate?_iff (hheader : 4 ≤ v.bytes.length) :
    (v.locate? name).answer = .ok (some e) ↔
      e.name = name ∧ ∃ front count before, front <+: v.bytes ∧ e.Closes front count before := by
  constructor
  · intro h
    rw [locate?_eq_search, search_found] at h
    obtain ⟨-, hnone⟩ | ⟨before, f, after, hfields, hf, hothers, hsome⟩ :=
      Record.find?_entries 4 v.contents.fields name
    · cases hnone.symm.trans h
    · cases hsome.symm.trans h
      obtain ⟨hcount, hbytes⟩ := bytes_eq_u32_append hheader
      obtain ⟨hfits, rest, hrest, -⟩ := Contents.eq_encode_of_read v.length 4 (v.bytes.drop 4)
      have hdeclared := Contents.length_fields_read_le v.length 4 (v.bytes.drop 4)
      rw [← contents, hfields] at hfits hrest hdeclared
      rw [List.length_append, List.length_cons] at hdeclared
      refine ⟨hf, Bytes.u32 v.length ++ (before.flatMap Field.encode ++ f.encode), v.length, before,
        ⟨after.flatMap Field.encode ++ rest, ?_⟩, rfl, rfl, hcount, by omega, fun g hg => ?_, ?_⟩
      · rw [hbytes, hrest]
        simp
      · exact ⟨hfits g (List.mem_append_left _ hg), fun hg' => hothers g hg (hg'.trans hf)⟩
      · exact hfits f (List.mem_append_right _ List.mem_cons_self)
  · rintro ⟨rfl, front, count, before, hfront, h⟩
    rw [locate?_of_closes h hfront]
    rfl

end View

/-! ## 3. Bytes behind what is found -/

namespace View

theorem get?_eq_map (v : View) (name : Bytes) :
    v.get? name = Option.map Entry.value <$> v.locate? name := rfl

theorem contains_eq_map (v : View) (name : Bytes) :
    v.contains name = Option.isSome <$> v.locate? name := by
  have h : v.contains name = Option.isSome <$> v.get? name := rfl
  rw [h, get?_eq_map, Functor.map_map]
  simp only [Option.isSome_map]

end View

/-- **A lookup is answered by the first entry of the name, and by nothing behind it.** In any bytes
    that have a count, a name is looked up among the entries that a walk yields: the first one of
    the name is found, and then nothing is reported; if there is none, the fault of the walk is met,
    if it has one. The value and whether there is one are told from the entry that is found. Its
    name and its value stand in the bytes at its offsets, and in any other bytes that are the same
    up to the end of the entry the lookups find the same, whatever follows there, and whether
    anything does. -/
theorem lookups_find_first_entry {bytes : Bytes} (hheader : 4 ≤ bytes.length) (name : Bytes) :
    let v : View := ⟨bytes⟩
    (View.ofBytes bytes).answer = .ok v ∧
    (∀ n, v.length < n →
      v.locate? name = View.search name (v.walk.yielded n) (v.walk.faults n).head?) ∧
    v.get? name = Option.map Entry.value <$> v.locate? name ∧
    v.contains name = Option.isSome <$> v.locate? name ∧
    ∀ e, (v.locate? name).answer = .ok (some e) →
      e.valueEnd ≤ bytes.length ∧
      bytes.extract e.nameStart e.nameEnd = name ∧
      bytes.extract e.valueStart e.valueEnd = e.value ∧
      ∀ other, bytes.take e.valueEnd <+: other →
        (View.ofBytes other).answer = .ok ⟨other⟩ ∧
        (View.mk other).locate? name = pure (some e) ∧
        (View.mk other).get? name = pure (some e.value) ∧
        (View.mk other).contains name = pure true := by
  intro v
  refine ⟨?_, fun n hn => v.locate?_eq name hn, v.get?_eq_map name, v.contains_eq_map name,
    fun e hfound => ?_⟩
  · rw [View.answer_ofBytes, if_neg (Nat.not_lt.2 hheader)]
  obtain ⟨rfl, front, count, before, hfront, h⟩ := (View.locate?_iff hheader).1 hfound
  obtain ⟨hname, hvalue⟩ := h.extract_eq hfront
  have htake : bytes.take e.valueEnd = front := by
    rw [← h.length_eq]
    exact (List.prefix_iff_eq_take.1 hfront).symm
  refine ⟨h.length_eq ▸ hfront.length_le, hname, hvalue, fun other hother => ?_⟩
  rw [htake] at hother
  have hlocate := View.locate?_of_closes (v := ⟨other⟩) h hother
  have hlong : 4 ≤ other.length := Nat.le_trans h.header hother.length_le
  refine ⟨?_, hlocate, ?_, ?_⟩
  · rw [View.answer_ofBytes, if_neg (Nat.not_lt.2 hlong)]
  · rw [View.get?_eq_map, hlocate]
    rfl
  · rw [View.contains_eq_map, hlocate]
    rfl

/-- Three fields are declared, two are there, and the length of the third name is cut off. The
    second one is found all the same, also if the bytes end behind it and if something else follows;
    a name that is not there meets the cut. -/
theorem second_field_found_before_cut :
    let bytes : Bytes :=
      [3, 0, 0, 0, 1, 0, 0, 0, 97, 1, 0, 0, 0, 1, 1, 0, 0, 0, 98, 2, 0, 0, 0, 7, 8, 9, 0]
    let v : View := ⟨bytes⟩
    let e : Entry := ⟨14, [98], [7, 8]⟩
    4 ≤ bytes.length ∧
      (v.locate? [98]).answer = .ok (some e) ∧
      (v.locate? [99]).answer = .error (.malformed 25 .truncatedLength) ∧
      bytes.extract e.valueStart e.valueEnd = [7, 8] ∧
      ∀ tail ∈ ([[], [255, 255, 255, 255, 0]] : List Bytes),
        (View.mk (bytes.take 25 ++ tail)).get? [98] = pure (some [7, 8]) := by
  intro bytes v e
  have hheader : 4 ≤ bytes.length := by decide
  have hfound : (v.locate? [98]).answer = .ok (some e) := rfl
  obtain ⟨-, -, -, -, hlocal⟩ := lookups_find_first_entry hheader [98]
  obtain ⟨-, -, hvalue, hother⟩ := hlocal e hfound
  exact ⟨hheader, hfound, rfl, hvalue,
    fun tail _ => (hother _ (List.prefix_append (bytes.take 25) tail)).2.2.1⟩

end FieldRecords
