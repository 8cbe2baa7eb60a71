import FieldRecords.Record.Overlay
import FieldRecords.Record.Projection
import FieldRecords.Proofs.Edits
import FieldRecords.Proofs.Selections

/-!
# Projecting records is picking from lists

A projection keeps fields of a list (`Record.kept`): in stored order the fields with a wanted name,
in asked order the first field of every wanted name, each name once (`Record.requested`). On
records the first is one pass, and the second looks every name up in the record and in what is
kept already. **Both append just the kept fields, one by one, to no fields**
(`reaches_projectBySource`, `reaches_projectByRequest`), so a projection is granted or refused like
the list (`holds_project_under`), and one whose limit admits the kept fields is granted
(`Row.project_of_admitted`, `holds_project_of_written`). Hence **a projection writes just the wanted
fields** (`projecting_keeps_wanted_fields`).
-/

namespace FieldRecords

/-! ## 1. The fields that are kept -/

namespace Record

/-- The fields that are asked for: every name once, in the order of asking, with its first value.
    Names that no field has are passed over. -/
def requested (fields : List Field) (names : List Bytes) : List Field :=
  names.eraseDups.filterMap fun name => (lookup? fields name).map (Field.mk name)

/-- **The fields a projection keeps.** -/
def kept (fields : List Field) (wanted : Selection) : ProjectionOrder → List Field
  | .source => fields.filter fun f => wanted.wants f.name
  | .request => requested fields wanted.names

/-- Names that are passed over may be passed over before or after the repeated ones are dropped. -/
theorem eraseDups_filter (p : Bytes → Bool) (names : List Bytes) :
    (names.filter p).eraseDups = names.eraseDups.filter p := by
  match names with
  | [] => rfl
  | name :: names =>
    have hless := List.length_filter_le (fun other => !other == name) names
    have ih := eraseDups_filter p (names.filter fun other => !other == name)
    rw [List.eraseDups_cons]
    cases hp : p name with
    | true =>
      have hswap : (names.filter p).filter (fun other => !other == name) =
          (names.filter fun other => !other == name).filter p := by
        simp only [List.filter_filter, Bool.and_comm]
      rw [List.filter_cons_of_pos hp, List.filter_cons_of_pos hp, List.eraseDups_cons, ← ih, hswap]
    | false =>
      have hnot : ¬ p name = true := by rw [hp]; exact Bool.false_ne_true
      rw [List.filter_cons_of_neg hnot, List.filter_cons_of_neg hnot, ← ih, List.filter_filter]
      -- the name itself is passed over, so dropping it makes no difference
      congr 1
      refine List.filter_congr fun other _ => ?_
      cases hother : p other with
      | false => rw [Bool.false_and]
      | true =>
        have hne : other ≠ name := fun e => hnot (e ▸ hother)
        simp [hne]
termination_by names.length
decreasing_by simp only [List.length_cons]; omega

/-- Repeated names are dropped. -/
theorem nodup_eraseDups (names : List Bytes) : names.eraseDups.Nodup := by
  match names with
  | [] => exact List.nodup_nil
  | name :: names =>
    have hless := List.length_filter_le (fun other => !other == name) names
    have ih := nodup_eraseDups (names.filter fun other => !other == name)
    rw [List.eraseDups_cons]
    refine List.nodup_cons.2 ⟨?_, ih⟩
    rw [List.mem_eraseDups, List.mem_filter]
    simp
termination_by names.length
decreasing_by simp only [List.length_cons]; omega

/-- A name that no field has makes no difference. -/
theorem requested_cons_of_none {fields : List Field} {name : Bytes} (names : List Bytes)
    (h : lookup? fields name = none) :
    requested fields (name :: names) = requested fields names := by
  have hpass : (lookup? fields name).map (Field.mk name) = none := by rw [h]; rfl
  rw [requested, List.eraseDups_cons, List.filterMap_cons, hpass, eraseDups_filter,
    List.filterMap_filter, requested]
  refine congrArg (fun pick => names.eraseDups.filterMap pick) (funext fun other => ?_)
  split
  · rfl
  · rename_i hother
    have he : other = name := by simpa using hother
    rw [he, hpass]

/-- A name that a field has is kept, and not asked for again. -/
theorem requested_cons_of_some {fields : List Field} {name value : Bytes} (names : List Bytes)
    (h : lookup? fields name = some value) :
    requested fields (name :: names) =
      ⟨name, value⟩ :: requested fields (names.filter fun other => !other == name) := by
  have hkeep : (lookup? fields name).map (Field.mk name) = some ⟨name, value⟩ := by rw [h]; rfl
  rw [requested, List.eraseDups_cons, List.filterMap_cons, hkeep]
  rfl

/-- Looking a name up among the entries is looking it up in the list. -/
theorem find?_entries_value (start : Nat) (fields : List Field) (name : Bytes) :
    ((entries start fields).find? fun e => e.name == name).map Entry.value =
      lookup? fields name := by
  induction fields generalizing start with
  | nil => rfl
  | cons f fields ih =>
    by_cases hf : f.name = name
    · simp [entries, lookup?, hf]
    · have hlookup : lookup? (f :: fields) name = lookup? fields name := by
        simp [lookup?, hf]
      rw [hlookup, ← ih (start + f.encode.length)]
      simp [entries, hf]

/-- Once a field is kept, later requests for its name are passed over. -/
theorem filter_names_append (fields : List Field) (f : Field) (names : List Bytes) :
    (names.filter fun name => !(fields ++ [f]).any fun g => g.name == name) =
      (names.filter fun name => !fields.any fun g => g.name == name).filter
        fun name => !name == f.name := by
  rw [List.filter_filter]
  refine List.filter_congr fun name _ => ?_
  simp [List.any_append, Bool.and_comm, BEq.comm (a := f.name)]

/-- A name has a value if some field has it. -/
theorem isSome_lookup? (fields : List Field) (name : Bytes) :
    (lookup? fields name).isSome = fields.any fun f => f.name == name := by
  rw [lookup?, Option.isSome_map, Bool.eq_iff_iff, List.find?_isSome, List.any_eq_true]

/-- A name that is found has a field. -/
theorem exists_of_lookup? {fields : List Field} {name value : Bytes}
    (h : lookup? fields name = some value) : ⟨name, value⟩ ∈ fields := by
  unfold lookup? at h
  rw [Option.map_eq_some_iff] at h
  obtain ⟨f, hfind, rfl⟩ := h
  have hname : f.name = name := by simpa using List.find?_some hfind
  rw [← hname]
  exact List.mem_of_find?_eq_some hfind

/-- **What is kept was there.** -/
theorem mem_of_mem_kept {fields : List Field} {wanted : Selection} {order : ProjectionOrder}
    {f : Field} (h : f ∈ kept fields wanted order) : f ∈ fields := by
  cases order with
  | source => exact (List.mem_filter.1 h).1
  | request =>
    obtain ⟨name, -, hname⟩ := List.mem_filterMap.1 h
    obtain ⟨value, hvalue, rfl⟩ := Option.map_eq_some_iff.1 hname
    exact exists_of_lookup? hvalue

/-- **No more is kept than was there**: in asked order no two fields have the same name. -/
theorem length_kept_le (fields : List Field) (wanted : Selection) (order : ProjectionOrder) :
    (kept fields wanted order).length ≤ fields.length := by
  cases order with
  | source => exact List.length_filter_le _ _
  | request =>
    refine List.Nodup.length_le_of_subset ?_ fun f hf => mem_of_mem_kept hf
    refine List.Pairwise.filterMap _ ?_ (nodup_eraseDups wanted.names)
    intro name other hne f hf g hg
    obtain ⟨_, -, rfl⟩ := Option.map_eq_some_iff.1 hf
    obtain ⟨_, -, rfl⟩ := Option.map_eq_some_iff.1 hg
    exact fun e => hne (congrArg Field.name e)

/-- Nothing wanted keeps nothing. -/
theorem kept_of_isEmpty {wanted : Selection} (h : wanted.isEmpty = true) (fields : List Field)
    (order : ProjectionOrder) : kept fields wanted order = [] := by
  cases order with
  | source =>
    refine List.filter_eq_nil_iff.2 fun f _ hwants => ?_
    exact Selection.isEmpty_iff.1 h f.name (Selection.wants_iff.1 hwants)
  | request =>
    have hnames : wanted.names = [] := List.isEmpty_iff.1 (wanted.isEmpty_eq.symm.trans h)
    rw [kept, hnames]
    rfl

end Record

/-! ## 2. Picking from a list -/

namespace Row

/-- One wanted name: passed over if it is kept already or no field has it. -/
def keepFirst (fields : List Field) (growth : Growth) (r : Row) (name : Bytes) :
    Except CodecError Row :=
  if r.fields.any fun g => g.name == name then .ok r
  else
    match Record.lookup? fields name with
    | some value => r.append ⟨name, value⟩ growth
    | none => .ok r

/-- Projecting what bytes hold. In stored order the fault is met after the fields before it, in
    asked order the fault comes first. -/
def project (r : Row) (c : Contents) (wanted : Selection) (order : ProjectionOrder)
    (growth : Growth := .granted) : Except CodecError Row :=
  if wanted.isEmpty then .ok r.clear
  else
    match order with
    | .source => do
      let kept ← whole (r.clear.extend (Record.kept c.fields wanted .source) growth)
      c.verdict
      return kept
    | .request => do
      c.verdict
      whole (r.clear.extend (Record.kept c.fields wanted .request) growth)

/-- **Asking name by name appends the fields that are asked for**, but for those whose name is
    kept already. -/
theorem foldUntilRefused_keepFirst (fields : List Field) (growth : Growth) (names : List Bytes)
    (r : Row) :
    Answer.foldUntilRefused (keepFirst fields growth) names r =
      r.extend (Record.requested fields
        (names.filter fun name => !r.fields.any fun g => g.name == name)) growth := by
  unfold extend
  induction names generalizing r with
  | nil => rfl
  | cons name names ih =>
    cases hany : r.fields.any fun g => g.name == name with
    | true =>
      have hstep : keepFirst fields growth r name = .ok r := by rw [keepFirst, hany, if_pos rfl]
      rw [Answer.foldUntilRefused_cons_ok hstep, ih, List.filter_cons_of_neg (by simp [hany])]
    | false =>
      rw [List.filter_cons_of_pos (by simp [hany])]
      cases hlookup : Record.lookup? fields name with
      | none =>
        have hstep : keepFirst fields growth r name = .ok r := by
          rw [keepFirst, hany, hlookup]
          rfl
        rw [Answer.foldUntilRefused_cons_ok hstep, ih, Record.requested_cons_of_none _ hlookup]
      | some value =>
        have hstep : keepFirst fields growth r name = r.append ⟨name, value⟩ growth := by
          rw [keepFirst, hany, hlookup]
          rfl
        rw [Record.requested_cons_of_some _ hlookup]
        cases happend : r.append ⟨name, value⟩ growth with
        | error error =>
          rw [Answer.foldUntilRefused_cons_error (hstep.trans happend),
            Answer.foldUntilRefused_cons_error happend]
        | ok s =>
          rw [Answer.foldUntilRefused_cons_ok (hstep.trans happend),
            Answer.foldUntilRefused_cons_ok happend, ih]
          obtain rfl := append_granted happend
          rw [Record.filter_names_append]

/-- What is left of a run from no fields, as a whole. -/
theorem whole_extend_clear {r s : Row} {fields : List Field} {growth : Growth}
    (h : whole (r.clear.extend fields growth) = .ok s) : s = { r with fields } := by
  have hleft := whole_eq_ok.1 h
  have hextend := extend_granted (congrArg Prod.snd hleft)
  rw [hleft] at hextend
  exact hextend

/-- **A projection that is granted leaves the kept fields.** -/
theorem project_granted {r s : Row} {c : Contents} {wanted : Selection} {order : ProjectionOrder}
    {growth : Growth} (h : r.project c wanted order growth = .ok s) :
    s = { r with fields := Record.kept c.fields wanted order } := by
  unfold project at h
  split at h
  · rename_i hempty
    cases h
    rw [Record.kept_of_isEmpty hempty]
    rfl
  · cases order with
    | source =>
      obtain ⟨kept, hkept, h⟩ := Answer.bind_eq_ok.1 h
      obtain ⟨-, -, h⟩ := Answer.bind_eq_ok.1 h
      cases h
      exact whole_extend_clear hkept
    | request =>
      obtain ⟨-, -, h⟩ := Answer.bind_eq_ok.1 h
      exact whole_extend_clear h

/-- **If the wanted fields are short enough, only a fault can refuse a projection.** The others
    may be longer. -/
theorem project_of_admitted {r : Row} {c : Contents} {wanted : Selection} (order : ProjectionOrder)
    (hwanted : wanted.isEmpty = false)
    (hadmitted : ∀ f ∈ Record.kept c.fields wanted order,
      f.name.length ≤ r.limit ∧ f.value.length ≤ r.limit)
    (hcount : c.fields.length ≤ Record.maxLength) :
    r.project c wanted order =
      c.verdict.map fun () => { r with fields := Record.kept c.fields wanted order } := by
  have hless := Record.length_kept_le c.fields wanted order
  have hextend : r.clear.extend (Record.kept c.fields wanted order) =
      ({ r with fields := Record.kept c.fields wanted order }, .ok ()) :=
    extend_of_fit hadmitted (by
      show 0 + _ ≤ _
      omega)
  unfold project
  rw [hwanted, if_neg Bool.false_ne_true]
  cases order with
  | source =>
    rw [hextend]
    cases c.verdict <;> rfl
  | request =>
    rw [hextend]
    cases c.verdict <;> rfl

/-- Nothing wanted is granted in spite of a fault. -/
theorem project_of_isEmpty {wanted : Selection} (hwanted : wanted.isEmpty = true) (r : Row)
    (c : Contents) (order : ProjectionOrder) : r.project c wanted order = .ok r.clear := by
  unfold project
  rw [if_pos hwanted]

/-- **Short fields that are not too many are all kept**, so only a fault can refuse a projection. -/
theorem project_of_short {r : Row} {c : Contents} {wanted : Selection} (order : ProjectionOrder)
    (hwanted : wanted.isEmpty = false)
    (hshort : ∀ f ∈ c.fields, f.name.length ≤ r.limit ∧ f.value.length ≤ r.limit)
    (hcount : c.fields.length ≤ Record.maxLength) :
    r.project c wanted order =
      c.verdict.map fun () => { r with fields := Record.kept c.fields wanted order } :=
  project_of_admitted order hwanted (fun f hf => hshort f (Record.mem_of_mem_kept hf)) hcount

/-- Short fields that are not too many are all kept, whatever is wanted. -/
theorem project_of_fit {r : Row} {fields : List Field} (wanted : Selection)
    (order : ProjectionOrder)
    (hshort : ∀ f ∈ fields, f.name.length ≤ r.limit ∧ f.value.length ≤ r.limit)
    (hcount : fields.length ≤ Record.maxLength) :
    r.project ⟨fields, none⟩ wanted order =
      .ok { r with fields := Record.kept fields wanted order } := by
  cases hwanted : wanted.isEmpty with
  | true =>
    rw [project_of_isEmpty hwanted, Record.kept_of_isEmpty hwanted]
    rfl
  | false => exact project_of_short order hwanted hshort hcount

end Row

/-! ## 3. Picking from a record -/

namespace View

/-- **Looking up a name finds the value of the first field of that name**, and meets the fault only
    if there is none. -/
theorem answer_get? (v : View) (name : Bytes) :
    (v.get? name).answer =
      match Record.lookup? v.contents.fields name with
      | some value => .ok (some value)
      | none => v.contents.verdict.map fun () => none := by
  unfold get?
  rw [Checked.answer_bind, answer_locate?, ← Record.find?_entries_value 4]
  cases (Record.entries 4 v.contents.fields).find? fun e => e.name == name with
  | some e => rfl
  | none =>
    show (v.contents.verdict.map fun () => none).bind _ = v.contents.verdict.map fun () => none
    cases v.contents.verdict <;> rfl

/-- In a written form every name is looked up as in the list. -/
theorem answer_get?_of_written {v : View} {fields : List Field}
    (h : Record.Written v.bytes fields) (name : Bytes) :
    (v.get? name).answer = .ok (Record.lookup? fields name) := by
  rw [answer_get?, contents_of_written h]
  cases Record.lookup? fields name <;> rfl

end View

namespace Buffer

variable {out : Buffer} {r : Row}

/-- A name is found in a record if a field of the list has it. -/
theorem answer_contains (h : out.Holds r) (name : Bytes) :
    (out.view.contains name).answer = .ok (r.fields.any fun g => g.name == name) := by
  rw [View.contains, Checked.answer_bind, View.answer_get?_of_written h.written,
    ← Record.isSome_lookup?]
  rfl

end Buffer

section

variable {out : Buffer} {r : Row} {v : View} {growth memory : Growth}

/-- A stored field is accepted if it is wanted, and otherwise passed over. -/
theorem answer_keepWanted (wanted : Selection) (out : Buffer) (growth : Growth)
    (accepted : Buffer.Batch) (e : Entry) :
    (keepWanted wanted out growth accepted e).answer =
      if wanted.wants e.field.name then (out.accept accepted e.field growth).answer
      else .ok accepted := by
  unfold keepWanted
  show Checked.answer (if wanted.wants e.field.name then _ else _) = _
  split
  · rw [Checked.answer_bind]
    cases (out.accept accepted e.field growth).answer <;> rfl
  · rfl

/-- Going through the stored fields is going through the wanted ones, and then meeting the fault. -/
theorem value_foldUntilRefused_keepWanted (wanted : Selection) (out : Buffer) (growth : Growth)
    (v : View) (accepted : Buffer.Batch) :
    (v.walk.foldUntilRefused (keepWanted wanted out growth) accepted).value =
      Answer.judgedBy v.contents.verdict
        (Answer.foldUntilRefused (fun accepted f => (out.accept accepted f growth).answer)
          (Record.kept v.contents.fields wanted .source) accepted) := by
  have hsteps : (fun accepted e => (keepWanted wanted out growth accepted e).answer) =
      fun accepted e =>
        if wanted.wants e.field.name then (out.accept accepted e.field growth).answer
        else .ok accepted :=
    funext fun accepted => funext fun e => answer_keepWanted wanted out growth accepted e
  have hfields : (v.walk.entries.filter fun e => wanted.wants e.field.name).map Entry.field =
      Record.kept v.contents.fields wanted .source := by
    rw [View.entries_walk, Record.kept, ← Record.map_field_entries 4 v.contents.fields,
      List.filter_map, Record.map_field_entries]
    rfl
  rw [Walk.value_foldUntilRefused, hsteps,
    Answer.foldUntilRefused_filter (fun accepted f => (out.accept accepted f growth).answer),
    hfields, View.contents_walk]

/-- **Going through the stored fields appends the wanted ones to the list.** -/
theorem reaches_projectBySource (h : out.HoldsUnder growth memory r) (wanted : Selection) :
    (projectBySource v wanted out growth).value.Reaches r (do
      let kept ← Row.whole (r.extend (Record.kept v.contents.fields wanted .source) memory)
      v.contents.verdict
      return kept) := by
  have hfold := Agree.fold (R := Buffer.Accepted memory r)
    (f := fun accepted f => (out.accept accepted f growth).answer)
    (g := fun r f => Row.append r f memory)
    (Record.kept v.contents.fields wanted .source)
    (fun _ _ hs f hf =>
      have hfits : f.Fits := View.fits_of_mem_contents (Record.mem_of_mem_kept hf)
      Buffer.agree_accept h hs (hfits.writableUnder r.limit))
    (Buffer.accepted_batch h)
  unfold projectBySource
  rw [Metered.value_bind, value_foldUntilRefused_keepWanted]
  unfold Row.extend
  generalize Answer.foldUntilRefused (fun accepted f => (out.accept accepted f growth).answer)
    (Record.kept v.contents.fields wanted .source) out.batch = left at hfold ⊢
  generalize Answer.foldUntilRefused (fun r f => Row.append r f memory)
    (Record.kept v.contents.fields wanted .source) r = right at hfold ⊢
  obtain ⟨accepted, outcome⟩ := left
  obtain ⟨s, outcome'⟩ := right
  obtain ⟨haccepted, houtcome⟩ := hfold
  cases houtcome
  have hholds := (Buffer.holds_write h haccepted).holds
  have hleft : (out.write accepted).limit = r.limit := h.holds.limit_eq
  cases outcome with
  | error error => exact Edited.reaches_error hleft error
  | ok u =>
    show Edited.Reaches ⟨_, v.contents.verdict⟩ r (v.contents.verdict >>= fun _ => .ok s)
    cases v.contents.verdict with
    | error error => exact Edited.reaches_error hleft error
    | ok u => exact ⟨hleft, rfl, fun t ht => by cases ht; exact hholds⟩

/-- One wanted name is looked up in what is kept and in the record, as in the lists. -/
theorem agree_keepFirst (h : out.HoldsUnder growth memory r) (hfault : v.contents.fault = none)
    (name : Bytes) :
    Agree (Buffer.HoldsUnder growth memory) (keepFirst v growth out name).answer
      (r.keepFirst v.contents.fields memory name) := by
  unfold keepFirst Row.keepFirst
  rw [Checked.answer_bind, Buffer.answer_contains h.holds]
  cases r.fields.any fun g => g.name == name with
  | true => exact .ok h
  | false =>
    show Agree _ (v.get? name >>= _).answer _
    rw [Checked.answer_bind, View.answer_get?, Contents.verdict_eq_ok.2 hfault]
    cases hlookup : Record.lookup? v.contents.fields name with
    | none => exact .ok h
    | some value =>
      have hfits : (⟨name, value⟩ : Field).Fits :=
        View.fits_of_mem_contents (Record.exists_of_lookup? hlookup)
      exact (Buffer.agree_append_under h (hfits.writableUnder r.limit)).then_report fun _ => rfl

/-- **Asking for one name after the other appends the requested fields to the list.** -/
theorem reaches_projectByRequest (h : out.HoldsUnder growth memory r) (hempty : r.fields = [])
    (wanted : Selection) :
    (projectByRequest v wanted out growth).value.Reaches r (do
      v.contents.verdict
      Row.whole (r.extend (Record.kept v.contents.fields wanted .request) memory)) := by
  unfold projectByRequest
  rw [Metered.value_bind, Checked.value_run, View.answer_validate]
  cases hverdict : v.contents.verdict with
  | error error => exact Edited.reaches_error h.holds.limit_eq error
  | ok u =>
    have hfault := Contents.verdict_eq_ok.1 hverdict
    have hfold := Agree.fold (R := Buffer.HoldsUnder growth memory)
      (f := fun out name => (keepFirst v growth out name).answer)
      (g := Row.keepFirst v.contents.fields memory) wanted.names
      (fun _ _ hs name _ => agree_keepFirst hs hfault name) h
    have hall : (wanted.names.filter fun name => !r.fields.any fun g => g.name == name) =
        wanted.names := by
      rw [hempty]
      exact List.filter_eq_self.2 fun _ _ => rfl
    rw [Row.foldUntilRefused_keepFirst, hall] at hfold
    rw [← Checked.value_foldUntilRefused] at hfold
    have hholds : Edited.Holds
        ⟨(Checked.foldUntilRefused (keepFirst v growth) wanted.names out).value.1,
          (Checked.foldUntilRefused (keepFirst v growth) wanted.names out).value.2⟩
        (r.extend (Record.kept v.contents.fields wanted .request) memory) :=
      ⟨hfold.1.holds, hfold.2⟩
    exact hholds.reaches (Row.limit_extend r _)

/-- A projection clears the output first, and again if it is refused. -/
theorem value_project (v : View) (wanted : Selection) (order : ProjectionOrder) (out : Buffer)
    (growth : Growth) :
    (project v wanted order out growth).value =
      if wanted.isEmpty then ⟨out.clear.value, .ok ()⟩
      else Edited.clearIfRefused (match order with
        | .source => (projectBySource v wanted out.clear.value growth).value
        | .request => (projectByRequest v wanted out.clear.value growth).value) := by
  unfold project Edited.clearIfRefused
  rw [Metered.value_bind, Metered.value_bind]
  split
  · rfl
  · cases order with
    | source =>
      rw [Metered.value_bind]
      obtain ⟨buffer, outcome⟩ := (projectBySource v wanted out.clear.value growth).value
      cases outcome <;> rfl
    | request =>
      rw [Metered.value_bind]
      obtain ⟨buffer, outcome⟩ := (projectByRequest v wanted out.clear.value growth).value
      cases outcome <;> rfl

/-- **Projecting a record is picking from the list**: a refused projection leaves no field, and
    what the output held before does not matter, but for the room that it leaves. -/
theorem holds_project_under (hlimit : out.limit = r.limit)
    (hmemory : growth.within out.clear.value.room = memory) (v : View) (wanted : Selection)
    (order : ProjectionOrder) :
    (project v wanted order out growth).value.Holds
      (r.orClear (r.project v.contents wanted order memory)) := by
  have hcleared : out.clear.value.HoldsUnder growth memory r.clear :=
    ⟨Buffer.holds_clear hlimit, hmemory⟩
  have hclear : ∀ answer, r.orClear answer = r.clear.orClear answer := fun answer => by
    cases answer <;> rfl
  rw [value_project, hclear]
  unfold Row.project
  split
  · exact ⟨hcleared.holds, rfl⟩
  · cases order with
    | source => exact (reaches_projectBySource hcleared wanted).holds_clearIfRefused
    | request => exact (reaches_projectByRequest hcleared rfl wanted).holds_clearIfRefused

theorem holds_project (hlimit : out.limit = r.limit) (v : View) (wanted : Selection)
    (order : ProjectionOrder) :
    (project v wanted order out).value.Holds
      (r.orClear (r.project v.contents wanted order)) :=
  holds_project_under hlimit (Growth.within_granted _) v wanted order

/-- **Without a limit on fields a projection of a view without a fault leaves the kept fields.** -/
theorem holds_project_of_valid (hfault : v.contents.fault = none) (wanted : Selection)
    (order : ProjectionOrder) (hlimit : out.limit = Record.maxLength) :
    (project v wanted order out).value.Holds
      (⟨Record.maxLength, Record.kept v.contents.fields wanted order⟩, .ok ()) := by
  have hcontents : v.contents = ⟨v.contents.fields, none⟩ := by rw [← hfault]
  have hshort : ∀ f ∈ v.contents.fields, f.name.length ≤ Record.maxLength ∧
      f.value.length ≤ Record.maxLength := fun f hf => (View.fits_of_mem_contents hf).short
  have hproject := holds_project (r := ⟨Record.maxLength, []⟩) hlimit v wanted order
  rw [hcontents, Row.project_of_fit wanted order hshort v.length_contents_le] at hproject
  exact hproject

/-- **Without a limit on fields a projection of a record leaves the kept fields.** -/
theorem holds_project_of_written {fields : List Field} (hv : Record.Written v.bytes fields)
    (wanted : Selection) (order : ProjectionOrder) (hlimit : out.limit = Record.maxLength) :
    (project v wanted order out).value.Holds
      (⟨Record.maxLength, Record.kept fields wanted order⟩, .ok ()) := by
  have hcontents := View.contents_of_written hv
  have hproject := holds_project_of_valid (by rw [hcontents]) wanted order hlimit
  rwa [hcontents] at hproject

end

/-! ## 4. Projecting a record -/

/-- **A projection writes just the wanted fields.** Of a record, in stored order, it keeps the
    fields with a wanted name, repeated ones included, and in asked order the first field of every
    wanted name that there is, each name once, where it is first asked for. It is granted as long as
    the limit admits the fields that are kept. Nothing wanted is granted whatever the bytes are, and
    leaves the empty record; so does every refusal. What the output held before does not matter. -/
theorem projecting_keeps_wanted_fields (v : View) (wanted : Selection) (order : ProjectionOrder)
    (out : Buffer) :
    let edited := (project v wanted order out).value
    (∀ fields, Record.Written v.bytes fields →
      (∀ f ∈ Record.kept fields wanted order,
        f.name.length ≤ out.limit ∧ f.value.length ≤ out.limit) →
      edited.outcome = .ok () ∧
        edited.buffer.bytes = Record.encode (Record.kept fields wanted order)) ∧
    (wanted.isEmpty = true →
      edited.outcome = .ok () ∧ edited.buffer.bytes = Record.emptyBytes) ∧
    ∀ error, edited.outcome = .error error → edited.buffer.bytes = Record.emptyBytes := by
  intro edited
  have hedited : edited.Holds (Row.orClear ⟨out.limit, []⟩
      (Row.project ⟨out.limit, []⟩ v.contents wanted order)) := holds_project rfl v wanted order
  have hnothing : wanted.isEmpty = true →
      edited.outcome = .ok () ∧ edited.buffer.bytes = Record.emptyBytes := by
    intro hwanted
    rw [Row.project_of_isEmpty hwanted] at hedited
    exact ⟨hedited.outcome, hedited.buffer.written.eq_encode.trans Record.encode_nil⟩
  refine ⟨fun fields hfields hadmitted => ?_, hnothing, fun error herror => ?_⟩
  · cases hwanted : wanted.isEmpty with
    | true =>
      rw [Record.kept_of_isEmpty hwanted]
      exact hnothing hwanted
    | false =>
      have hcount : fields.length ≤ Record.maxLength := Nat.le_of_lt_succ hfields.fits.1
      rw [View.contents_of_written hfields,
        Row.project_of_admitted order hwanted hadmitted hcount] at hedited
      exact ⟨hedited.outcome, hedited.buffer.written.eq_encode⟩
  · have hrefused := hedited.outcome.symm.trans herror
    have hbytes := hedited.buffer.written.eq_encode
    generalize Row.project ⟨out.limit, []⟩ v.contents wanted order = answer at hrefused hbytes
    cases answer with
    | ok s => cases hrefused
    | error error => exact hbytes.trans Record.encode_nil

/-- A record that repeats a name, asked for in both orders by a list that repeats a name and has one
    that the record has not. The limit just admits the fields that are kept, and the outputs hold
    no records. -/
theorem projecting_repeated_names :
    let fields : List Field := [⟨[97], [1]⟩, ⟨[98], [2, 2, 2]⟩, ⟨[99], []⟩, ⟨[97], [3, 3]⟩]
    let wanted : Selection := .list [[99], [100], [97], [99]]
    let v : View := ⟨Record.encode fields⟩
    let bySource := (project v wanted .source ⟨[7], 2, 1⟩).value
    let byRequest := (project v wanted .request ⟨[], 1, 0⟩).value
    bySource.outcome = .ok () ∧
      bySource.buffer.bytes = Record.encode [⟨[97], [1]⟩, ⟨[99], []⟩, ⟨[97], [3, 3]⟩] ∧
      byRequest.outcome = .ok () ∧
      byRequest.buffer.bytes = Record.encode [⟨[99], []⟩, ⟨[97], [1]⟩] := by
  intro fields wanted v bySource byRequest
  have hfields : Record.Written v.bytes fields := Record.written_encode (by decide)
  obtain ⟨hsource, -, -⟩ := projecting_keeps_wanted_fields v wanted .source ⟨[7], 2, 1⟩
  obtain ⟨hrequest, -, -⟩ := projecting_keeps_wanted_fields v wanted .request ⟨[], 1, 0⟩
  obtain ⟨hsourceOk, hsourceBytes⟩ := hsource fields hfields (by decide)
  obtain ⟨hrequestOk, hrequestBytes⟩ := hrequest fields hfields (by decide)
  exact ⟨hsourceOk, hsourceBytes, hrequestOk, hrequestBytes⟩

end FieldRecords
