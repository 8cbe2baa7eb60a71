import FieldRecords.Store.RowStore
import FieldRecords.Proofs.Merging
import FieldRecords.Proofs.Projecting

/-!
# One verdict for all readers

A byte string with a count can be read in many ways: step by step, as a whole, into a list, by name,
into a buffer, as either side of a merge, as the source of a projection, as a row that is to be
stored. They meet entries in different orders, and some look at everything before they start. **All
of them come to the same verdict**: stepping through the record meets at most one fault
(`Walk.yielded_faults_eq`), and every other reader is refused if there is one, and then for just
this fault (`View.SettledBy`, `readers_agree_on_fault`).

Only lookups can be granted in spite of a fault, namely if a field before it has the name.
-/

namespace FieldRecords

/-! ## 1. Stepping -/

namespace Walk

/-- The entry that a step yields, if it yields one. -/
def Step.entry? : Step → Option Entry
  | .entry e => some e
  | _ => none

/-- The fault that a step meets, if it meets one. -/
def Step.fault? : Step → Option CodecError
  | .fault error => some error
  | _ => none

/-- What a walk yields when it is stepped so many times. -/
def yields : Nat → Walk → List Step
  | 0, _ => []
  | n + 1, w => w.next.value.1 :: yields n w.next.value.2

/-- The entries among it. -/
def yielded (n : Nat) (w : Walk) : List Entry := (w.yields n).filterMap Step.entry?

/-- The faults among it. -/
def faults (n : Nat) (w : Walk) : List CodecError := (w.yields n).filterMap Step.fault?

/-- A walk that is over yields nothing, however often it is stepped. -/
theorem yields_of_finished {w : Walk} (h : w.finished = true) (n : Nat) :
    w.yields n = List.replicate n .done := by
  induction n with
  | zero => rfl
  | succ n ih =>
    rw [yields, next_of_finished h]
    exact congrArg (Step.done :: ·) ih

/-- What a walk yields behind its entries. -/
def ending (w : Walk) : Step :=
  match w.contents.fault with
  | none => .done
  | some error => .fault error

/-- **A walk yields its entries, then the fault if there is one, and then nothing more.** -/
theorem yields_eq (w : Walk) (n : Nat) :
    w.yields (w.entries.length + 1 + n) =
      w.entries.map .entry ++ w.ending :: List.replicate n .done := by
  generalize hes : w.entries = es
  induction es generalizing w with
  | nil =>
    have hover := fun h => yields_of_finished (finished_next (w := w) h) n
    rw [List.length_nil, Nat.zero_add, Nat.add_comm, yields, ending]
    obtain ⟨hc, w', hnext⟩ | ⟨error, hc, hnext⟩ | ⟨e, w', -, -, -, hes', -⟩ := w.next_cases
    · rw [hnext] at hover ⊢
      rw [hc, hover (fun e he => by cases he)]
      rfl
    · rw [hnext] at hover ⊢
      rw [hc, hover (fun e he => by cases he)]
      rfl
    · rw [hes'] at hes
      cases hes
  | cons e es ih =>
    obtain ⟨hc, -⟩ | ⟨error, hc, -⟩ | ⟨e', w', -, -, hc, hes', hnext⟩ := w.next_cases
    · rw [entries, hc] at hes
      cases hes
    · rw [entries, hc] at hes
      cases hes
    · rw [hes'] at hes
      cases hes
      have hending : w.ending = w'.ending := by
        rw [ending, hc]
        rfl
      rw [List.length_cons, Nat.add_right_comm _ 1 1, Nat.add_right_comm _ 1 n, yields, hnext,
        hending]
      exact congrArg (Step.entry e :: ·) (ih w' rfl)

/-- A walk yields no more entries than are declared. -/
theorem length_entries_le (w : Walk) : w.entries.length ≤ w.remaining := by
  rw [entries, Record.length_entries, contents]
  split
  · exact Nat.zero_le _
  · exact Contents.length_fields_read_le _ _ _

/-- **So many steps yield so many entries of the contents**, as long as there are some. -/
theorem yielded_eq_take (n : Nat) (w : Walk) : w.yielded n = w.entries.take n := by
  induction n generalizing w with
  | zero => rfl
  | succ n ih =>
    have hover : (∀ e, w.next.value.1 ≠ .entry e) → w.yielded (n + 1) = [] := by
      intro hnone
      rw [yielded, yields, yields_of_finished (finished_next hnone)]
      refine List.filterMap_eq_nil_iff.2 fun step hstep => ?_
      cases step with
      | entry e => simp [List.mem_replicate, (hnone e).symm] at hstep
      | fault error => rfl
      | done => rfl
    obtain ⟨hc, w', hnext⟩ | ⟨error, hc, hnext⟩ | ⟨e, w', -, -, -, hentries, hnext⟩ := w.next_cases
    · rw [hover (by simp [hnext]), entries, hc]
      rfl
    · rw [hover (by simp [hnext, fail]), entries, hc]
      rfl
    · rw [hentries, List.take_succ_cons, ← ih, yielded, yields, hnext]
      rfl

/-- **Enough steps yield the entries of the contents, and then the fault, and nothing else**: no
    step meets a fault before the last entry, and none after the first fault. -/
theorem yielded_faults_eq {w : Walk} {n : Nat} (h : w.remaining < n) :
    w.yielded n = w.entries ∧ w.faults n = w.contents.fault.toList := by
  have hlength := w.length_entries_le
  refine ⟨(w.yielded_eq_take n).trans (List.take_of_length_le (by omega)), ?_⟩
  obtain ⟨rest, rfl⟩ : ∃ rest, n = w.entries.length + 1 + rest :=
    ⟨n - (w.entries.length + 1), by omega⟩
  have hentries : (w.entries.map Step.entry).filterMap Step.fault? = [] := by
    simp [Step.fault?, Function.comp_def]
  rw [faults, yields_eq, ending, List.filterMap_append, hentries, List.nil_append]
  cases w.contents.fault <;> simp [Step.fault?]

end Walk

/-! ## 2. Settled answers -/

/-- **The answer is settled by the fault**: granted if there is none, and otherwise refused for just
    this fault. -/
inductive Answer.SettledBy {α : Type} : Option CodecError → Except CodecError α → Prop where
  | granted (a : α) : SettledBy none (.ok a)
  | refused (error : CodecError) : SettledBy (some error) (.error error)

namespace Answer.SettledBy

variable {α β : Type} {fault : Option CodecError} {answer : Except CodecError α}

theorem verdict (c : Contents) : SettledBy c.fault c.verdict := by
  unfold Contents.verdict
  cases c.fault with
  | none => exact .granted ()
  | some error => exact .refused error

/-- What is made of a granted answer does not matter. -/
theorem map (h : SettledBy fault answer) (f : α → β) : SettledBy fault (answer.map f) := by
  cases h with
  | granted a => exact .granted (f a)
  | refused error => exact .refused error

/-- Answers that agree are settled alike. -/
theorem of_agree {R : α → β → Prop} {told : Except CodecError β} (htold : SettledBy fault told)
    (h : Agree R answer told) : SettledBy fault answer := by
  cases h with
  | ok h =>
    cases htold
    exact .granted _
  | error error =>
    cases htold
    exact .refused error

/-- A fault that is there refuses. -/
theorem eq_error {error : CodecError} (h : SettledBy (some error) answer) :
    answer = .error error := by
  cases h
  rfl

end Answer.SettledBy

/-- **Every reader of the view is settled by the fault.** -/
structure View.SettledBy (v : View) (fault : Option CodecError) : Prop where
  /-- Stepping through the entries meets the fault, once, and no further entry, however long it goes
      on. -/
  stepping : ∀ n, v.length < n →
    v.walk.faults n = fault.toList ∧ v.walk.yielded n = v.walk.yielded (v.length + 1)
  validate : Answer.SettledBy fault v.validate.answer
  toFields : Answer.SettledBy fault v.toFields.answer
  readInto : ∀ out : RowList, Answer.SettledBy fault (v.readInto out).value.2
  assign : ∀ b : Buffer, Answer.SettledBy fault (b.assign v).answer
  ofBytes : Answer.SettledBy fault (Buffer.ofBytes v.bytes).answer
  /-- Looking up a name that no entry has. -/
  lookup : ∀ name, (∀ e ∈ v.walk.yielded (v.length + 1), e.name ≠ name) →
    Answer.SettledBy fault (v.get? name).answer ∧ Answer.SettledBy fault (v.contains name).answer
  /-- Projecting something, in either order. -/
  project : ∀ (wanted : Selection) (order : ProjectionOrder) (out : Buffer),
    wanted.isEmpty = false → out.limit = Record.maxLength →
      Answer.SettledBy fault (FieldRecords.project v wanted order out).value.outcome
  /-- Merging an update into the view, unless too many fields would be left. -/
  mergeBase : ∀ (update : View) (changes : List Field) (out : Buffer),
    Record.Written update.bytes changes → out.limit = Record.maxLength →
    (fault = none → (Record.overlay ((v.walk.yielded (v.length + 1)).map Entry.field)
      changes).length ≤ Record.maxLength) →
      Answer.SettledBy fault (mergeInto v update out).value.outcome
  /-- The fault of the record that is updated comes before any fault of the update. -/
  mergeFirst : ∀ (error : CodecError) (update : View) (out : Buffer), fault = some error →
    (mergeInto v update out).value.outcome = .error error
  /-- Merging the view into a row, unless too many fields would be left. -/
  mergeUpdate : ∀ (base : View) (row : List Field) (out : Buffer),
    Record.Written base.bytes row → out.limit = Record.maxLength →
    (fault = none → (Record.overlay row
      ((v.walk.yielded (v.length + 1)).map Entry.field)).length ≤ Record.maxLength) →
      Answer.SettledBy fault (mergeInto base v out).value.outcome
  /-- Storing the view as a row: the fault is logged, and nothing is stored. -/
  insert : ∀ {σ : Type} [KeyValueStore σ] (rows : RowStore) (key : Bytes) (s : σ),
    let (outcome, left) := (rows.insert key v).run s
    (∀ error, fault = some error → outcome.value.status = .error ∧
      outcome.value.warnings = [⟨key, error⟩] ∧ left = s) ∧
    (fault = none → outcome.value.status = .ok ∧ outcome.value.warnings = [])

/-! ## 3. One reader after the other -/

section

variable {v : View}

/-- Stepping yields the entries of the contents. -/
theorem yielded_walk (v : View) :
    v.walk.yielded (v.length + 1) = Record.entries 4 v.contents.fields :=
  (Walk.yielded_faults_eq (Nat.lt_succ_self v.walk.remaining)).1

/-- A name that no entry has is not found. -/
theorem lookup?_of_absent {name : Bytes}
    (h : ∀ e ∈ v.walk.yielded (v.length + 1), e.name ≠ name) :
    Record.lookup? v.contents.fields name = none := by
  rw [yielded_walk] at h
  rw [← Record.find?_entries_value 4, Option.map_eq_none_iff, List.find?_eq_none]
  intro e he
  rw [beq_iff_eq]
  exact h e he

/-- **Only the fault refuses a projection of something**, without a limit on fields. -/
theorem outcome_project (wanted : Selection) (order : ProjectionOrder) {out : Buffer}
    (hwanted : wanted.isEmpty = false) (hlimit : out.limit = Record.maxLength) :
    (project v wanted order out).value.outcome = v.contents.verdict := by
  have hproject := (holds_project (r := ⟨Record.maxLength, []⟩) hlimit v wanted order).outcome
  have hshort : ∀ f ∈ v.contents.fields, f.name.length ≤ Record.maxLength ∧
      f.value.length ≤ Record.maxLength := fun f hf => (View.fits_of_mem_contents hf).short
  rw [Row.project_of_short order hwanted hshort v.length_contents_le] at hproject
  rw [hproject]
  cases v.contents.verdict <;> rfl

/-- **Merging into a record is refused for the fault of the update**, or if too many fields would be
    left. -/
theorem outcome_mergeInto_of_base {base : View} {row : List Field}
    (hbase : Record.Written base.bytes row) (update : View) {out : Buffer}
    (hlimit : out.limit = Record.maxLength)
    (hfit : update.contents.fault = none →
      (Record.overlay row update.contents.fields).length ≤ Record.maxLength) :
    (mergeInto base update out).value.outcome = update.contents.verdict := by
  have hmerge := (holds_mergeInto (r := ⟨Record.maxLength, row⟩) hlimit hbase.header update).outcome
  rw [View.contents_of_written hbase,
    Row.overlay_stored hbase.fits fun f hf => View.fits_of_mem_contents hf] at hmerge
  rw [hmerge]
  unfold Contents.verdict
  cases hfault : update.contents.fault with
  | some error => rfl
  | none =>
    have hcount := hfit hfault
    simp only
    rw [if_neg (Nat.not_lt.2 hcount)]
    rfl

/-- The fault of the record that is updated refuses the merge, whatever the update is. -/
theorem outcome_mergeInto_of_fault (hheader : 4 ≤ v.bytes.length) {error : CodecError}
    (hfault : v.contents.fault = some error) (update : View) (out : Buffer) :
    (mergeInto v update out).value.outcome = .error error := by
  have hmerge := (holds_mergeInto (r := ⟨out.limit, []⟩) rfl hheader update).outcome
  unfold Row.overlay Contents.verdict at hmerge
  rw [hfault] at hmerge
  exact hmerge

/-- Storing a record goes by its verdict, over any store. -/
theorem run_insert {σ : Type} [KeyValueStore σ] (rows : RowStore) (key : Bytes) (s : σ) :
    let (outcome, left) := (rows.insert key v).run s
    (∀ error, v.contents.fault = some error → outcome.value.status = .error ∧
      outcome.value.warnings = [⟨key, error⟩] ∧ left = s) ∧
    (v.contents.fault = none → outcome.value.status = .ok ∧ outcome.value.warnings = []) := by
  have hanswer := v.answer_validate
  simp only [RowStore.insert, Checked.value_run, hanswer, Contents.verdict]
  cases v.contents.fault with
  | some error =>
    refine ⟨fun other hother => ?_, fun hnone => (nomatch hnone)⟩
    cases hother
    exact ⟨rfl, rfl, rfl⟩
  | none => exact ⟨fun _ hother => (nomatch hother), fun _ => ⟨rfl, rfl⟩⟩

/-- **Every reader of a view with a count is settled by the fault of its contents.** -/
theorem View.settledBy_fault (hheader : 4 ≤ v.bytes.length) : v.SettledBy v.contents.fault := by
  have hverdict := Answer.SettledBy.verdict v.contents
  have hfields : (v.walk.yielded (v.length + 1)).map Entry.field = v.contents.fields := by
    rw [yielded_walk, Record.map_field_entries]
  constructor
  case stepping =>
    intro n hn
    obtain ⟨hyielded, hfaults⟩ := Walk.yielded_faults_eq (w := v.walk) hn
    exact ⟨hfaults, hyielded.trans (yielded_walk v).symm⟩
  case validate => exact v.answer_validate ▸ hverdict
  case toFields => exact v.answer_toFields ▸ hverdict.map _
  case readInto => exact fun out => (v.value_readInto out).1 ▸ hverdict
  case assign =>
    intro b
    exact (hverdict.map _).of_agree (Buffer.agree_assign (r := ⟨b.limit, []⟩) rfl hheader)
  case ofBytes =>
    have hagree := Buffer.agree_ofBytes v.bytes
    rw [Row.ofBytes, if_neg (Nat.not_lt.2 hheader)] at hagree
    exact (hverdict.map _).of_agree hagree
  case lookup =>
    intro name habsent
    have hget := v.answer_get? name
    rw [lookup?_of_absent habsent] at hget
    have hcontains : (v.contains name).answer =
        v.contents.verdict.map fun () => false := by
      unfold View.contains
      rw [Checked.answer_bind, hget]
      cases v.contents.verdict <;> rfl
    exact ⟨hget ▸ hverdict.map _, hcontains ▸ hverdict.map _⟩
  case project =>
    intro wanted order out hwanted hlimit
    exact outcome_project wanted order hwanted hlimit ▸ hverdict
  case mergeBase =>
    intro update changes out hupdate hlimit hfit
    rw [hfields] at hfit
    cases hfault : v.contents.fault with
    | some error =>
      rw [outcome_mergeInto_of_fault hheader hfault]
      exact .refused error
    | none =>
      have hwritten := Record.written_of_fault_none hheader hfault
      have hcontents := View.contents_of_written hupdate
      have hmerge := outcome_mergeInto_of_base hwritten update hlimit
        fun _ => hcontents ▸ hfit hfault
      rw [hmerge, hcontents]
      exact .granted ()
  case mergeFirst => exact fun error update out h => outcome_mergeInto_of_fault hheader h update out
  case mergeUpdate =>
    intro base row out hbase hlimit hfit
    rw [hfields] at hfit
    exact outcome_mergeInto_of_base hbase v hlimit hfit ▸ hverdict
  case insert => exact fun rows key s => run_insert rows key s

end

/-! ## 4. The verdict -/

/-- **All readers come to the same verdict.** Of a byte string that has a count, a view can be
    taken, and there is one fault, or none, that settles every reader of it. Of a shorter byte
    string no view can be taken, and it is not adopted by a buffer: the count is missing where it
    ends. -/
theorem readers_agree_on_fault (bytes : Bytes) :
    (4 ≤ bytes.length →
      (View.ofBytes bytes).answer = .ok ⟨bytes⟩ ∧ ∃ fault, (View.mk bytes).SettledBy fault) ∧
    (bytes.length < 4 →
      (View.ofBytes bytes).answer = .error (.malformed bytes.length .missingHeader) ∧
      (Buffer.ofBytes bytes).answer = .error (.malformed bytes.length .missingHeader)) := by
  refine ⟨fun hheader => ⟨?_, _, View.settledBy_fault hheader⟩, fun hshort => ⟨?_, ?_⟩⟩
  · rw [View.answer_ofBytes, if_neg (Nat.not_lt.2 hheader)]
  · rw [View.answer_ofBytes, if_pos hshort]
  · have hagree := Buffer.agree_ofBytes bytes
    rw [Row.ofBytes, if_pos hshort] at hagree
    generalize (Buffer.ofBytes bytes).answer = answer at hagree
    cases hagree
    rfl

/-- Two fields are declared, one is there, and the length of the next name is cut off. A name that
    stands before the fault is found; all others meet it, as do a projection of the field before it
    and merges on both sides, with an update that is no record at all on the other one. -/
theorem readers_agree_on_cut_length :
    let bytes : Bytes := [2, 0, 0, 0, 1, 0, 0, 0, 97, 1, 0, 0, 0, 7, 3, 0]
    let v : View := ⟨bytes⟩
    let error := CodecError.malformed 14 .truncatedLength
    4 ≤ bytes.length ∧ v.walk.faults 5 = [error] ∧
      (v.get? [97]).answer = .ok (some [7]) ∧ (v.get? [98]).answer = .error error ∧
      v.toFields.answer = .error error ∧ (Buffer.ofBytes bytes).answer = .error error ∧
      (project v (.list [[97]]) .source Buffer.new).value.outcome = .error error ∧
      (mergeInto v ⟨[9]⟩ Buffer.new).value.outcome = .error error ∧
      (mergeInto ⟨Record.emptyBytes⟩ v Buffer.new).value.outcome = .error error := by
  intro bytes v error
  have hheader : 4 ≤ bytes.length := by decide
  have hfound : (v.get? [97]).answer = .ok (some [7]) := rfl
  have hfaults : v.walk.faults 5 = [error] := by decide
  obtain ⟨-, fault, hv⟩ := (readers_agree_on_fault bytes).1 hheader
  obtain rfl : fault = some error := by
    have hmet := (hv.stepping 5 (by decide)).1.symm.trans hfaults
    exact Option.toList_eq_singleton_iff.1 hmet
  have habsent : ∀ e ∈ v.walk.yielded (v.length + 1), e.name ≠ [98] := by decide
  refine ⟨hheader, hfaults, hfound, (hv.lookup [98] habsent).1.eq_error, hv.toFields.eq_error,
    hv.ofBytes.eq_error, ?_, hv.mergeFirst error ⟨[9]⟩ Buffer.new rfl, ?_⟩
  · exact (hv.project (.list [[97]]) .source Buffer.new rfl rfl).eq_error
  · refine (hv.mergeUpdate ⟨Record.emptyBytes⟩ [] Buffer.new Record.written_nil rfl ?_).eq_error
    exact fun hnone => nomatch hnone

end FieldRecords
