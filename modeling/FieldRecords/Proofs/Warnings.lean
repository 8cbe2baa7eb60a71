import FieldRecords.Proofs.Scans

/-!
# Whose key is logged

An operation that ends with an error logs one warning, and every other one logs nothing. The warning
says what is wrong with the row that was refused, and names the key that the operation was given
(`refused_rows_are_logged_under_asked_key`). Reads and updates look at one row only, and it is that
of their key. **A scan looks at more rows, and its warning names the key that it starts from**,
whichever row is refused, so the text that is logged need not lead to the row that is broken
(`scan_logs_start_key_of_broken_row`).
-/

namespace FieldRecords

/-! ## 1. Faults and other reasons -/

/-- **What is wrong with the bytes of a row**, if they are no record. -/
def Record.fault? (stored : Bytes) : Option CodecError :=
  if stored.length < 4 then some (.malformed stored.length .missingHeader)
  else (View.mk stored).contents.fault

/-- Nothing is wrong with records, and with nothing else. -/
theorem Record.fault?_eq_none {stored : Bytes} : fault? stored = none ↔ Valid stored := by
  unfold fault?
  split
  · rename_i hshort
    constructor
    · intro hnone
      cases hnone
    · rintro ⟨fields, hwritten⟩
      exact absurd hwritten.header (Nat.not_le_of_lt hshort)
  · rename_i hheader
    constructor
    · exact fun hfault => ⟨_, written_of_fault_none (Nat.le_of_not_lt hheader) hfault⟩
    · rintro ⟨fields, hwritten⟩
      rw [View.contents_of_written hwritten]

namespace Row

variable {r : Row} {error : CodecError}

/-- A field is refused for its length, or because there are too many. -/
theorem append_refused {f : Field} (h : r.append f = .error error) : error.isMalformed = false := by
  unfold append at h
  split at h
  · cases h
    rfl
  · split at h
    · cases h
      rfl
    · split at h
      · cases h
        rfl
      · cases h

theorem lay_refused {f : Field} (h : r.lay f = .error error) : error.isMalformed = false := by
  unfold lay at h
  split at h
  · split at h
    · cases h
      rfl
    · cases h
  · exact append_refused h

/-- **If a projection says that bytes are at fault, it is their fault.** -/
theorem fault_of_project {c : Contents} {wanted : Selection} {order : ProjectionOrder}
    (h : r.project c wanted order = .error error) (hmalformed : error.isMalformed = true) :
    c.fault = some error := by
  have hkept : ∀ fields, whole (r.clear.extend fields) ≠ .error error := by
    intro fields hrefused
    obtain ⟨s, f, hstep⟩ := Answer.refused_of_foldUntilRefused (whole_eq_error.1 hrefused)
    exact Bool.false_ne_true ((append_refused hstep).symm.trans hmalformed)
  unfold project at h
  split at h
  · cases h
  · cases order with
    | source =>
      obtain hrefused | ⟨kept, -, h⟩ := Answer.bind_eq_error.1 h
      · exact absurd hrefused (hkept _)
      · obtain hverdict | ⟨u, -, h⟩ := Answer.bind_eq_error.1 h
        · exact Contents.verdict_eq_error.1 hverdict
        · cases h
    | request =>
      obtain hverdict | ⟨u, -, hrefused⟩ := Answer.bind_eq_error.1 h
      · exact Contents.verdict_eq_error.1 hverdict
      · exact absurd hrefused (hkept _)

/-- **If a merge says that bytes are at fault, it is the fault of one of the records.** -/
theorem fault_of_overlay {base update : Contents} (h : r.overlay base update = .error error)
    (hmalformed : error.isMalformed = true) :
    base.fault = some error ∨ update.fault = some error := by
  obtain hverdict | ⟨u, -, h⟩ := Answer.bind_eq_error.1 h
  · exact .inl (Contents.verdict_eq_error.1 hverdict)
  · obtain hverdict | ⟨u, -, hrefused⟩ := Answer.bind_eq_error.1 h
    · exact .inr (Contents.verdict_eq_error.1 hverdict)
    · obtain ⟨s, f, hstep⟩ := Answer.refused_of_foldUntilRefused (whole_eq_error.1 hrefused)
      exact absurd ((lay_refused hstep).symm.trans hmalformed) Bool.false_ne_true

end Row

/-- An edit is refused for what its list is refused for. -/
theorem Edited.Holds.refused {edited : Edited} {r : Row} {told : Except CodecError Row}
    (h : edited.Holds (r.orClear told)) {error : CodecError}
    (hrefused : edited.answer = .error error) : told = .error error := by
  have houtcome := h.outcome
  cases told with
  | ok s => rw [Edited.answer, houtcome] at hrefused; cases hrefused
  | error refused => rw [Edited.answer, houtcome] at hrefused; cases hrefused; rfl

namespace RowStore

variable {stored : Bytes} {error : CodecError}

/-- **If a row is not filled because bytes are at fault, it is the row's own fault.** -/
theorem fault_of_filled {order : ProjectionOrder} {wanted : Option Selection} {limit : Nat}
    (h : filled order wanted limit stored = .error error) (hmalformed : error.isMalformed = true) :
    Record.fault? stored = some error := by
  have hview := View.answer_ofBytes stored
  unfold filled fillRow at h
  rw [Metered.value_bind, Checked.value_run] at h
  unfold Record.fault?
  split at hview
  · rename_i hshort
    rw [hview] at h
    cases h
    rw [if_pos hshort]
  · rename_i hheader
    rw [hview] at h
    rw [if_neg hheader]
    cases wanted with
    | some wanted =>
      have hproject : (project ⟨stored⟩ wanted order (.unused limit)).value.Holds _ :=
        holds_project (r := ⟨limit, []⟩) rfl ⟨stored⟩ wanted order
      exact Row.fault_of_project (hproject.refused h) hmalformed
    | none =>
      have hverdict := (View.mk stored).answer_validate
      simp only [Metered.value_bind, Checked.value_run, Buffer.assign, Buffer.copy_granted,
        Checked.answer_bind, hverdict] at h
      cases hv : (View.mk stored).contents.verdict with
      | ok u => rw [hv] at h; cases h
      | error refused =>
        rw [hv] at h
        cases h
        exact Contents.verdict_eq_error.1 hv

/-- **If a row is not updated because bytes are at fault, it is the row's own fault or that of the
    values.** -/
theorem fault_of_laidOver {limit : Nat} {values : View}
    (h : laidOver limit stored values = .error error) (hmalformed : error.isMalformed = true) :
    Record.fault? stored = some error ∨ values.contents.fault = some error := by
  have hview := View.answer_ofBytes stored
  unfold laidOver at h
  unfold Record.fault?
  split at hview
  · rename_i hshort
    rw [hview] at h
    cases h
    exact .inl (if_pos hshort)
  · rename_i hheader
    rw [hview] at h
    rw [if_neg hheader]
    have hmerge : (mergeInto ⟨stored⟩ values (.unused limit)).value.Holds _ :=
      holds_mergeInto (r := ⟨limit, []⟩) rfl (Nat.le_of_not_lt hheader) values
    exact Row.fault_of_overlay (hmerge.refused h) hmalformed

/-! ## 2. The row that is refused -/

/-- The first of some rows that is refused, and why. The `i`-th of them is attempted the `i`-th
    way. -/
def firstRefused : (attempt : Nat → Bytes → Except CodecError Bytes) → List (Bytes × Bytes) →
    Option ((Bytes × Bytes) × CodecError)
  | _, [] => none
  | attempt, pair :: pairs =>
    match attempt 0 pair.2 with
    | .error error => some (pair, error)
    | .ok _ => firstRefused (fun i => attempt (i + 1)) pairs

/-- What is refused is one of the rows, and it is what its attempt is refused for. -/
theorem firstRefused_mem {attempt : Nat → Bytes → Except CodecError Bytes}
    {pairs : List (Bytes × Bytes)} {pair : Bytes × Bytes}
    (h : firstRefused attempt pairs = some (pair, error)) :
    pair ∈ pairs ∧ ∃ i, attempt i pair.2 = .error error := by
  induction pairs generalizing attempt with
  | nil => cases h
  | cons first pairs ih =>
    cases hfirst : attempt 0 first.2 with
    | error refused =>
      rw [firstRefused, hfirst] at h
      cases h
      exact ⟨List.mem_cons_self, 0, hfirst⟩
    | ok row =>
      rw [firstRefused, hfirst] at h
      obtain ⟨hmem, i, hrefused⟩ := ih h
      exact ⟨List.mem_cons_of_mem first hmem, i + 1, hrefused⟩

/-- **Filling rows ends at the first one that is refused**, and for its reason. -/
theorem filledAll_outcome (order : ProjectionOrder) (wanted : Option Selection)
    (limits : Nat → Nat) (pairs : List (Bytes × Bytes)) :
    (filledAll order wanted limits pairs).2 =
      match firstRefused (fun i => filled order wanted (limits i)) pairs with
      | some (_, error) => .error error
      | none => .ok () := by
  induction pairs generalizing limits with
  | nil => rfl
  | cons pair pairs ih =>
    obtain ⟨key, stored⟩ := pair
    rw [filledAll, firstRefused]
    cases filled order wanted (limits 0) stored with
    | error error => rfl
    | ok row => exact ih fun i => limits (i + 1)

end RowStore

namespace Call

/-- The key that the call is given; a scan starts from it. -/
def key : Call → Bytes
  | insert key _ | update key _ | delete key | read key _ _ | scan key _ _ _ => key

/-- The stored rows that the call looks at, in this order. -/
def visited (m : MemoryStore) : Call → List (Bytes × Bytes)
  | read key _ _ | update key _ => (m[key]?.map fun stored => (key, stored)).toList
  | scan key count _ _ => m.pairsFrom key count
  | insert _ _ | delete _ => []

/-- What the call makes of the `i`-th row that it looks at, if it is granted. -/
def attempt (client : RowStore) : Call → (i : Nat) → Bytes → Except CodecError Bytes
  | update _ values, _, stored => RowStore.laidOver client.merger.scratch.limit stored values
  | read _ wanted result, _, stored => RowStore.filled client.order wanted result.limit stored
  | scan _ _ wanted result, i, stored =>
    RowStore.filled client.order wanted (Buffer.limits result i) stored
  | insert _ _, _, stored | delete _, _, stored => .ok stored

/-- **The stored row at which the call ends with an error**, if there is one, and what the error
    is. -/
def refused? (client : RowStore) (m : MemoryStore) (call : Call) :
    Option ((Bytes × Bytes) × CodecError) :=
  RowStore.firstRefused (call.attempt client) (call.visited m)

variable {client : RowStore} {m : MemoryStore} {call : Call} {key stored : Bytes}
  {error : CodecError}

/-- **What a call looks at is stored**, and if it is not the row of the key that the call is given,
    the call is a scan. -/
theorem mem_visited (h : (key, stored) ∈ call.visited m) :
    m[key]? = some stored ∧
      (key = call.key ∨ ∃ count wanted result, call = .scan call.key count wanted result) := by
  cases call with
  | insert other values => cases h
  | delete other => cases h
  | read other wanted result =>
    obtain ⟨found, hfound, hpair⟩ := Option.map_eq_some_iff.1 (Option.mem_toList.1 h)
    cases hpair
    exact ⟨hfound, .inl rfl⟩
  | update other values =>
    obtain ⟨found, hfound, hpair⟩ := Option.map_eq_some_iff.1 (Option.mem_toList.1 h)
    cases hpair
    exact ⟨hfound, .inl rfl⟩
  | scan start count wanted result =>
    exact ⟨MemoryStore.getElem?_of_mem_pairsFrom h, .inr ⟨count, wanted, result, rfl⟩⟩

/-- **If the error says that bytes are at fault, it is the fault of the row, or that of the values
    with which it was to be updated.** -/
theorem fault_of_attempt {i : Nat} (h : call.attempt client i stored = .error error)
    (hmalformed : error.isMalformed = true) :
    Record.fault? stored = some error ∨
      ∃ values, call = .update call.key values ∧ values.contents.fault = some error := by
  cases call with
  | insert key values => cases h
  | delete key => cases h
  | read key wanted result => exact .inl (RowStore.fault_of_filled h hmalformed)
  | scan key count wanted result => exact .inl (RowStore.fault_of_filled h hmalformed)
  | update key values =>
    exact (RowStore.fault_of_laidOver h hmalformed).imp_right fun hvalues => ⟨values, rfl, hvalues⟩

/-- **A call is answered with an error if a row is refused**, or if what is to be inserted is no
    record; otherwise nothing is logged. -/
theorem reply_cases (client : RowStore) (m : MemoryStore) (call : Call) :
    let reply := (call.run client m).1
    (∃ pair error, call.refused? client m = some (pair, error) ∧
      reply.status = .error ∧ reply.warnings = [⟨call.key, error⟩]) ∨
    (call.refused? client m = none ∧
      ((reply.status ≠ .error ∧ reply.warnings = []) ∨
        ∃ values error, call = .insert call.key values ∧ values.contents.fault = some error ∧
          reply.status = .error ∧ reply.warnings = [⟨call.key, error⟩])) := by
  intro reply
  have hok : Status.ok ≠ .error := by decide
  have habsent : Status.notFound ≠ .error := by decide
  have hreply : reply = _ := (goes_as_told client m call).reply_eq
  rw [hreply]
  clear hreply reply
  cases call with
  | insert key values =>
    refine .inr ⟨rfl, ?_⟩
    simp only [question, Question.told]
    cases hverdict : values.contents.verdict with
    | ok u => exact .inl ⟨hok, rfl⟩
    | error error =>
      exact .inr ⟨values, error, rfl, Contents.verdict_eq_error.1 hverdict, rfl, rfl⟩
  | delete key =>
    refine .inr ⟨rfl, .inl ⟨?_, rfl⟩⟩
    simp only [question, Question.told]
    cases m.contains key with
    | true => exact hok
    | false => exact habsent
  | read key wanted result =>
    simp only [question, Question.told, limits, refused?, visited]
    cases m[key]? with
    | none => exact .inr ⟨rfl, .inl ⟨habsent, rfl⟩⟩
    | some stored =>
      simp only [Option.map_some, Option.toList_some, RowStore.firstRefused, attempt]
      cases RowStore.filled client.order wanted result.limit stored with
      | ok row => exact .inr ⟨rfl, .inl ⟨hok, rfl⟩⟩
      | error error => exact .inl ⟨(key, stored), error, rfl, rfl, rfl⟩
  | update key values =>
    simp only [question, Question.told, refused?, visited]
    cases m[key]? with
    | none => exact .inr ⟨rfl, .inl ⟨habsent, rfl⟩⟩
    | some stored =>
      simp only [Option.map_some, Option.toList_some, RowStore.firstRefused, attempt]
      cases RowStore.laidOver client.merger.scratch.limit stored values with
      | ok row => exact .inr ⟨rfl, .inl ⟨hok, rfl⟩⟩
      | error error => exact .inl ⟨(key, stored), error, rfl, rfl, rfl⟩
  | scan key count wanted result =>
    have houtcome := RowStore.filledAll_outcome client.order wanted (Buffer.limits result)
      (m.pairsFrom key count)
    simp only [question, Question.told, limits, refused?, visited, houtcome]
    have hattempt : (scan key count wanted result).attempt client =
      fun i => RowStore.filled client.order wanted (Buffer.limits result i) := rfl
    rw [hattempt]
    rcases RowStore.firstRefused _ (m.pairsFrom key count) with _ | ⟨pair, error⟩
    · exact .inr ⟨rfl, .inl ⟨hok, rfl⟩⟩
    · exact .inl ⟨pair, error, rfl, rfl, rfl⟩

end Call

/-! ## 3. Whose key it is -/

/-- **A refused row is logged once, under the key that the call was given.** A call that does not
    end with an error logs nothing. If a stored row is refused, the call ends with an error and logs
    one warning with what the row is refused for. The row is that of the key the call was given, and
    so is the key that is logged, unless the call is a scan: then the row may be any of those it
    looks at, and the key that is logged is still the one the scan starts from. If the warning says
    that bytes are at fault, it is the fault of this row, or that of the values with which it was to
    be updated. If no stored row is refused, only values that are inserted can be. -/
theorem refused_rows_are_logged_under_asked_key (client : RowStore) (m : MemoryStore)
    (call : Call) :
    let reply := (call.run client m).1
    (reply.status ≠ .error → reply.warnings = []) ∧
    (∀ key stored error, call.refused? client m = some ((key, stored), error) →
      reply.status = .error ∧ reply.warnings = [⟨call.key, error⟩] ∧
      m[key]? = some stored ∧
      (key = call.key ∨ ∃ count wanted result, call = .scan call.key count wanted result) ∧
      (error.isMalformed = true → Record.fault? stored = some error ∨
        ∃ values, call = .update call.key values ∧ values.contents.fault = some error)) ∧
    (call.refused? client m = none → reply.status = .error →
      ∃ values error, call = .insert call.key values ∧ values.contents.fault = some error ∧
        reply.warnings = [⟨call.key, error⟩]) := by
  intro reply
  obtain ⟨pair, error, hrefused, hstatus, hlogged⟩ | ⟨hnone, hreply⟩ :=
    Call.reply_cases client m call
  · refine ⟨fun hother => absurd hstatus hother, fun key stored other hother => ?_,
      fun hnone => ?_⟩
    · cases hrefused.symm.trans hother
      obtain ⟨hmem, i, hattempt⟩ := RowStore.firstRefused_mem hrefused
      obtain ⟨hstored, hkey⟩ := Call.mem_visited hmem
      exact ⟨hstatus, hlogged, hstored, hkey, Call.fault_of_attempt hattempt⟩
    · cases hrefused.symm.trans hnone
  · refine ⟨fun hstatus => ?_, fun key stored error hrefused => ?_, fun _ hstatus => ?_⟩
    · obtain ⟨-, hlogged⟩ | ⟨values, error, -, -, herror, -⟩ := hreply
      · exact hlogged
      · exact absurd herror hstatus
    · cases hnone.symm.trans hrefused
    · obtain ⟨hother, -⟩ | ⟨values, error, hcall, hfault, -, hlogged⟩ := hreply
      · exact absurd hstatus hother
      · exact ⟨values, error, hcall, hfault, hlogged⟩

/-- A broken row behind a good one. Read, updated or scanned from its own key it is logged under
    this key; scanned from the good row's key it is logged under that one, and scanned alone the
    good row leaves no warning. -/
theorem broken_row_logged_by_each_call :
    let m : MemoryStore :=
      ((∅ : MemoryStore).insert [97] (Record.encode [⟨[102], [118]⟩])).insert [98] [1, 0, 0, 0]
    let client : RowStore := ⟨⟨Buffer.new⟩, .source, []⟩
    let broken : CodecError := .malformed 4 .truncatedLength
    let logged := fun call : Call => (call.run client m).1.warnings
    logged (.read [98] none Buffer.new) = [⟨[98], broken⟩] ∧
      logged (.update [98] ⟨Record.encode [⟨[102], []⟩]⟩) = [⟨[98], broken⟩] ∧
      logged (.scan [98] 1 none []) = [⟨[98], broken⟩] ∧
      logged (.scan [97] 2 none []) = [⟨[97], broken⟩] ∧
      logged (.scan [97] 1 none []) = [] := by
  intro m client broken logged
  have hrefused : ∀ call : Call, call.refused? client m = some (([98], [1, 0, 0, 0]), broken) →
      logged call = [⟨call.key, broken⟩] := fun call h =>
    ((refused_rows_are_logged_under_asked_key client m call).2.1 _ _ _ h).2.1
  refine ⟨hrefused _ (by decide), hrefused _ (by decide), hrefused _ (by decide),
    hrefused _ (by decide), ?_⟩
  exact (refused_rows_are_logged_under_asked_key client m (.scan [97] 1 none [])).1 (by decide)

/-- **The text that is logged need not be that of the broken row's key.** A good row and a broken
    one are scanned from the good one's key, and this key is all that the log shows. -/
theorem scan_logs_start_key_of_broken_row :
    let m : MemoryStore :=
      ((∅ : MemoryStore).insert [97] (Record.encode [⟨[102], [118]⟩])).insert [98] [1, 0, 0, 0]
    let client : RowStore := ⟨⟨Buffer.new⟩, .source, []⟩
    let call : Call := .scan [97] 2 none []
    let reply := (call.run client m).1
    call.refused? client m =
        some (([98], [1, 0, 0, 0]), .malformed 4 .truncatedLength) ∧
      Record.fault? [1, 0, 0, 0] = some (.malformed 4 .truncatedLength) ∧
      reply.status = .error ∧
      reply.warnings.map Warning.keyText = ["a"] ∧
      Utf8.toTextLossy [98] = "b" := by
  decide

end FieldRecords
