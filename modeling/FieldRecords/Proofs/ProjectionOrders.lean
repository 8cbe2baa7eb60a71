import FieldRecords.Proofs.RoundTrip
import FieldRecords.Proofs.Verdicts

/-!
# The two orders of a projection agree up to order

In stored order a projection meets a fault on its way, behind fields that it has kept already; in
asked order it looks at the whole record first, and then looks up one name after the other. What
they keep can still be told in the same way: **a name that is wanted has its first value, and no
other name has one** (`Record.lookup?_kept`). Fields of distinct names are known by their values,
but for the order (`Record.perm_of_lookup?`), so of a record that repeats no name both keep the same
fields.

**Both orders are granted or refused alike, and show every name alike** (`projection_orders_agree`).
Of a name that the record repeats, stored order keeps every field and asked order the first.
-/

namespace FieldRecords

namespace Record

/-! ## 1. Values of what is kept -/

/-- Choosing fields by their names keeps the values of the chosen names. -/
theorem lookup?_filter (p : Bytes → Bool) (fields : List Field) (name : Bytes) :
    lookup? (fields.filter fun f => p f.name) name =
      if p name = true then lookup? fields name else none := by
  induction fields with
  | nil => rw [List.filter_nil, lookup?_nil, ite_self]
  | cons f fields ih =>
    rw [List.filter_cons]
    by_cases hname : f.name = name
    · subst hname
      split
      · rw [lookup?_cons, lookup?_cons, if_pos rfl, if_pos rfl]
      · rename_i hp
        rw [ih, if_neg hp]
    · split
      · rw [lookup?_cons, lookup?_cons, if_neg hname, if_neg hname, ih]
      · rw [lookup?_cons, if_neg hname, ih]

/-- What is looked up name by name is found under these names, and under no other. -/
theorem lookup?_filterMap (look : Bytes → Option Bytes) (names : List Bytes) (name : Bytes) :
    lookup? (names.filterMap fun other => (look other).map (Field.mk other)) name =
      if name ∈ names then look name else none := by
  induction names with
  | nil => rfl
  | cons other names ih =>
    rw [List.filterMap_cons]
    by_cases hname : other = name
    · subst hname
      rw [if_pos List.mem_cons_self]
      cases hlook : look other with
      | none =>
        rw [hlook, ite_self] at ih
        exact ih
      | some value => exact (lookup?_cons _ _ _).trans (if_pos rfl)
    · have hmem : name ∈ other :: names ↔ name ∈ names := by
        rw [List.mem_cons, or_iff_right (Ne.symm hname)]
      simp only [hmem]
      rw [← ih]
      cases look other with
      | none => rfl
      | some value => exact (lookup?_cons _ _ _).trans (if_neg hname)

/-- **A name that is wanted has its first value among the kept fields**, and no other name has
    one. -/
theorem lookup?_kept (fields : List Field) (wanted : Selection) (order : ProjectionOrder)
    (name : Bytes) :
    lookup? (kept fields wanted order) name =
      if wanted.Denotes name then lookup? fields name else none := by
  cases order with
  | source =>
    rw [kept, lookup?_filter]
    simp only [Selection.wants_iff]
  | request =>
    rw [kept, requested, lookup?_filterMap]
    simp only [List.mem_eraseDups, Selection.mem_names]

/-! ## 2. Fields of distinct names -/

/-- Of fields of distinct names, each has the value of its name. -/
theorem lookup?_of_mem {fields : List Field} (hdistinct : (fields.map Field.name).Nodup) {f : Field}
    (h : f ∈ fields) : lookup? fields f.name = some f.value := by
  induction fields with
  | nil => exact absurd h List.not_mem_nil
  | cons g fields ih =>
    obtain ⟨hg, hfields⟩ := List.nodup_cons.1 hdistinct
    rw [lookup?_cons]
    rcases List.mem_cons.1 h with rfl | h
    · rw [if_pos rfl]
    · have hne : g.name ≠ f.name := fun hname => hg (hname ▸ List.mem_map_of_mem h)
      rw [if_neg hne, ih hfields h]

/-- Fields of distinct names are distinct. -/
theorem nodup_of_names {fields : List Field} (h : (fields.map Field.name).Nodup) : fields.Nodup :=
  List.Pairwise.of_map Field.name (fun _ _ hne heq => hne (congrArg Field.name heq)) h

/-- **Fields of distinct names are known by their values**, but for their order. -/
theorem perm_of_lookup? {fields others : List Field} (hfields : (fields.map Field.name).Nodup)
    (hothers : (others.map Field.name).Nodup)
    (h : ∀ name, lookup? fields name = lookup? others name) : fields.Perm others := by
  rw [List.perm_ext_iff_of_nodup (nodup_of_names hfields) (nodup_of_names hothers)]
  intro f
  constructor
  · intro hf
    exact exists_of_lookup? ((h f.name).symm.trans (lookup?_of_mem hfields hf))
  · intro hf
    exact exists_of_lookup? ((h f.name).trans (lookup?_of_mem hothers hf))

/-- The names that are asked for and found, each once. -/
theorem names_requested (fields : List Field) (names : List Bytes) :
    (requested fields names).map Field.name =
      names.eraseDups.filter fun name => (lookup? fields name).isSome := by
  rw [requested, List.map_filterMap, ← List.filterMap_eq_filter]
  refine congrArg (fun pick => names.eraseDups.filterMap pick) (funext fun name => ?_)
  cases hlookup : lookup? fields name <;> simp [Option.guard, hlookup]

theorem nodup_names_requested (fields : List Field) (names : List Bytes) :
    ((requested fields names).map Field.name).Nodup := by
  rw [names_requested]
  exact (nodup_eraseDups names).sublist List.filter_sublist

/-- **Of fields of distinct names both orders keep the same ones.** -/
theorem kept_perm {fields : List Field} (hdistinct : (fields.map Field.name).Nodup)
    (wanted : Selection) :
    (kept fields wanted .source).Perm (kept fields wanted .request) := by
  have hsource : ((kept fields wanted .source).map Field.name).Nodup :=
    hdistinct.sublist (List.filter_sublist.map Field.name)
  refine perm_of_lookup? hsource (nodup_names_requested fields wanted.names) fun name => ?_
  rw [lookup?_kept, lookup?_kept]

end Record

/-! ## 3. Projections that are granted -/

section

variable {v : View} {wanted : Selection} {out other : Buffer}

/-- A view without a fault is asked for a name like the list of its fields. -/
theorem View.answer_get?_of_valid (hfault : v.contents.fault = none) (name : Bytes) :
    (v.get? name).answer = .ok (Record.lookup? v.contents.fields name) := by
  rw [answer_get?, Contents.verdict_eq_ok.2 hfault]
  cases Record.lookup? v.contents.fields name <;> rfl

/-- What a projection leaves shows a name that is wanted as the view does, and no other name. -/
theorem answer_get?_project (hfault : v.contents.fault = none) (wanted : Selection)
    (order : ProjectionOrder) (hlimit : out.limit = Record.maxLength) (name : Bytes) :
    ((project v wanted order out).value.buffer.view.get? name).answer =
      if wanted.Denotes name then (v.get? name).answer else .ok none := by
  have hwritten := (holds_project_of_valid hfault wanted order hlimit).buffer.written
  rw [View.answer_get?_of_written hwritten, Record.lookup?_kept, View.answer_get?_of_valid hfault]
  split <;> rfl

/-- **Both orders agree up to order.** Whatever the bytes of the view are, a projection of something
    is granted in both orders or refused in both, for the same reason, and it is granted just if the
    view is valid. If it is granted, both outputs show a name that is wanted as the view does, and
    no other name; and if the view repeats no name, they have the same fields, in whatever order,
    with the same count and the same number of bytes. What the outputs held before does not
    matter. -/
theorem projection_orders_agree (v : View) {wanted : Selection} (hwanted : wanted.isEmpty = false)
    {out other : Buffer} (hout : out.limit = Record.maxLength)
    (hother : other.limit = Record.maxLength) :
    let bySource := (project v wanted .source out).value
    let byRequest := (project v wanted .request other).value
    bySource.outcome = byRequest.outcome ∧ bySource.outcome = v.validate.answer ∧
    (bySource.outcome = .ok () →
      (∀ name, wanted.Denotes name →
        (bySource.buffer.view.get? name).answer = (v.get? name).answer ∧
          (byRequest.buffer.view.get? name).answer = (v.get? name).answer) ∧
      (∀ name, ¬ wanted.Denotes name →
        (bySource.buffer.view.get? name).answer = .ok none ∧
          (byRequest.buffer.view.get? name).answer = .ok none) ∧
      ∀ fields, v.toFields.answer = .ok fields → (fields.map Field.name).Nodup →
        bySource.buffer.view.Rearranges byRequest.buffer.view) := by
  intro bySource byRequest
  have hsource : bySource.outcome = v.contents.verdict :=
    outcome_project wanted .source hwanted hout
  have hrequest : byRequest.outcome = v.contents.verdict :=
    outcome_project wanted .request hwanted hother
  refine ⟨hsource.trans hrequest.symm, hsource.trans v.answer_validate.symm, fun hgranted => ?_⟩
  have hfault := Contents.verdict_eq_ok.1 (hsource.symm.trans hgranted)
  refine ⟨fun name hname => ?_, fun name hname => ?_, fun fields hfields hdistinct => ?_⟩
  · constructor
    · exact (answer_get?_project hfault wanted .source hout name).trans (if_pos hname)
    · exact (answer_get?_project hfault wanted .request hother name).trans (if_pos hname)
  · constructor
    · exact (answer_get?_project hfault wanted .source hout name).trans (if_neg hname)
    · exact (answer_get?_project hfault wanted .request hother name).trans (if_neg hname)
  · rw [View.answer_toFields, Contents.verdict_eq_ok.2 hfault] at hfields
    cases hfields
    exact View.rearranges_of_written
      (holds_project_of_valid hfault wanted .source hout).buffer.written
      (holds_project_of_valid hfault wanted .request hother).buffer.written
      (Record.kept_perm hdistinct wanted)

end

/-- A list that repeats a name and has one that no field has. The view of distinct names is
    projected in both orders, into outputs that hold no records; cut off in its last value, it is
    refused in both. -/
theorem orders_agree_on_distinct_names :
    let fields : List Field := [⟨[97], [1]⟩, ⟨[98], [2, 2]⟩, ⟨[99], [3]⟩]
    let wanted : Selection := .list [[99], [100], [97], [99]]
    let v : View := ⟨Record.encode fields⟩
    let cut : View := ⟨(Record.encode fields).dropLast⟩
    let out : Buffer := ⟨[7], Record.maxLength, 1⟩
    let bySource := (project v wanted .source out).value
    let byRequest := (project v wanted .request out).value
    wanted.isEmpty = false ∧ bySource.outcome = .ok () ∧ byRequest.outcome = .ok () ∧
      bySource.buffer.view.Rearranges byRequest.buffer.view ∧
      (byRequest.buffer.view.get? [99]).answer = .ok (some [3]) ∧
      (byRequest.buffer.view.get? [98]).answer = .ok none ∧
      (project cut wanted .source out).value.outcome = .error (.malformed 34 .truncatedValue) ∧
      (project cut wanted .request out).value.outcome = .error (.malformed 34 .truncatedValue) := by
  intro fields wanted v cut out bySource byRequest
  have hwanted : wanted.isEmpty = false := rfl
  have hlimit : out.limit = Record.maxLength := rfl
  have hfields : Record.Written v.bytes fields := Record.written_encode (by decide)
  have hvalid : v.validate.answer = .ok () := by
    rw [View.answer_validate, View.contents_of_written hfields]
    rfl
  have hcut : cut.validate.answer = .error (.malformed 34 .truncatedValue) := by
    have hfault : cut.contents.fault = some (.malformed 34 .truncatedValue) := by decide
    rw [View.answer_validate, Contents.verdict, hfault]
  have hget : (v.get? [99]).answer = .ok (some [3]) := View.answer_get?_of_written hfields [99]
  have hdistinct : (fields.map Field.name).Nodup := by decide
  have hdenotes : wanted.Denotes [99] ∧ ¬ wanted.Denotes [98] := by decide
  clear_value v cut
  obtain ⟨hsame, hsource, hgranted⟩ := projection_orders_agree v hwanted hlimit hlimit
  obtain ⟨hsameCut, hsourceCut, -⟩ := projection_orders_agree cut hwanted hlimit hlimit
  obtain ⟨hshown, hhidden, hfieldsSame⟩ := hgranted (hsource.trans hvalid)
  refine ⟨hwanted, hsource.trans hvalid, hsame.symm.trans (hsource.trans hvalid), ?_, ?_, ?_,
    hsourceCut.trans hcut, hsameCut.symm.trans (hsourceCut.trans hcut)⟩
  · exact hfieldsSame fields (View.answer_toFields_of_written hfields) hdistinct
  · exact (hshown [99] hdenotes.1).2.trans hget
  · exact (hhidden [98] hdenotes.2).2

end FieldRecords
