import FieldRecords.Proofs.Reuse
import FieldRecords.Proofs.Sharing

/-!
# Calls that fail leave no trace

An update can fail because there is no row, because the stored bytes or the given ones are no
record, or because a field is too long for the merger's limit after others have been laid. Each
leaves something else in the client's buffers. None of it counts: **how a call is answered is told
from the order of projections, from the limits and from what is stored** (`Question.told`,
`Call.goes_as_told`), so clients with the same order and limit cannot be told apart
(`RowStore.Alike`), and a call leaves its client like it was.

What is told of a call that is not answered with `ok` is that the store stays as it was
(`Question.told_of_failed`). Together, **a failed call might as well not have been made**
(`failed_calls_leave_no_trace`).
-/

namespace FieldRecords

/-! ## 1. How a call is told -/

/-- An empty buffer of this limit. -/
def Buffer.unused (limit : Nat) : Buffer := ⟨Record.emptyBytes, limit, Record.headerSize⟩

/-- The limits of buffers; those that are not given are new. -/
def Buffer.limits (buffers : List Buffer) (i : Nat) : Nat := (buffers[i]?.getD Buffer.new).limit

namespace RowStore

/-- A stored row with `values` laid over it under a limit, if it is granted. -/
def laidOver (limit : Nat) (stored : Bytes) (values : View) : Except CodecError Bytes :=
  (View.ofBytes stored).answer.bind fun base =>
    (mergeInto base values (.unused limit)).value.answer

/-- What is selected of a stored row, if it is granted. -/
def filled (order : ProjectionOrder) (wanted : Option Selection) (limit : Nat) (stored : Bytes) :
    Except CodecError Bytes :=
  (fillRow stored wanted order (.unused limit)).value.answer

/-- What is selected of stored rows, up to the first one that is refused. The `i`-th of them is
    under the `i`-th limit. -/
def filledAll (order : ProjectionOrder) (wanted : Option Selection) :
    (limits : Nat → Nat) → List (Bytes × Bytes) → List Bytes × Except CodecError Unit
  | _, [] => ([], .ok ())
  | limits, (_, stored) :: pairs =>
    match filled order wanted (limits 0) stored with
    | .error error => ([], .error error)
    | .ok row =>
      let (rows, outcome) := filledAll order wanted (fun i => limits (i + 1)) pairs
      (row :: rows, outcome)

/-- Two clients that differ in nothing but what their buffers hold. -/
structure Alike (a b : RowStore) : Prop where
  order_eq : a.order = b.order
  limit_eq : a.merger.scratch.limit = b.merger.scratch.limit

theorem Alike.refl (a : RowStore) : a.Alike a := ⟨rfl, rfl⟩

theorem Alike.symm {a b : RowStore} (h : a.Alike b) : b.Alike a :=
  ⟨h.order_eq.symm, h.limit_eq.symm⟩

theorem Alike.trans {a b c : RowStore} (h : a.Alike b) (h' : b.Alike c) : a.Alike c :=
  ⟨h.order_eq.trans h'.order_eq, h.limit_eq.trans h'.limit_eq⟩

end RowStore

/-- The reply of what was answered, over these rows. -/
def Reply.of (key : Bytes) (answer : Except CodecError Unit) (rows : List Bytes) : Reply :=
  match answer with
  | .ok () => ⟨.ok, [], rows⟩
  | .error error => ⟨.error, [⟨key, error⟩], rows⟩

/-- **How a question is answered, and the store that is left.** Of the client only the order of
    projections and the limit of its merger are asked for, of the buffers that are to be filled only
    the limits. -/
def Question.told (order : ProjectionOrder) (limit : Nat) (limits : Nat → Nat) (m : MemoryStore) :
    Question → Reply × MemoryStore
  | insert key values =>
    match values.contents.verdict with
    | .ok () => (.of key (.ok ()) [], m.insert key values.bytes)
    | .error error => (.of key (.error error) [], m)
  | update key values =>
    let found := m[key]?.map fun stored => RowStore.laidOver limit stored values
    match found with
    | none => (⟨.notFound, [], []⟩, m)
    | some (.ok row) => (.of key (.ok ()) [], m.insert key row)
    | some (.error error) => (.of key (.error error) [], m)
  | delete key => (⟨if m.contains key then .ok else .notFound, [], []⟩, m.erase key)
  | read key wanted =>
    let found := m[key]?.map (RowStore.filled order wanted (limits 0))
    match found with
    | none => (⟨.notFound, [], [Record.emptyBytes]⟩, m)
    | some (.ok row) => (.of key (.ok ()) [row], m)
    | some (.error error) => (.of key (.error error) [Record.emptyBytes], m)
  | scan key count wanted =>
    let (rows, outcome) := RowStore.filledAll order wanted limits (m.pairsFrom key count)
    (.of key outcome rows, m)

namespace Call

/-- The limits of the buffers that are to be filled. -/
def limits : Call → Nat → Nat
  | read _ _ result => fun _ => result.limit
  | scan _ _ _ result => Buffer.limits result
  | _ => fun _ => Record.maxLength

/-- What is asked, and under which limits. -/
def asked (call : Call) : Question × (Nat → Nat) := (call.question, call.limits)

/-- **The call goes as it is told**, and its client is left like it was. -/
structure GoesAsTold (client : RowStore) (m : MemoryStore) (call : Call) : Prop where
  reply_eq : (call.run client m).1 =
    (call.question.told client.order client.merger.scratch.limit call.limits m).1
  store_eq : (call.run client m).2.2 =
    (call.question.told client.order client.merger.scratch.limit call.limits m).2
  client : (call.run client m).2.1.Alike client

end Call

/-! ## 2. Filling buffers -/

namespace RowStore

variable {out other : Buffer}

/-- **A buffer is filled or refused by its limit alone.** -/
theorem answer_fillRow_eq (stored : Bytes) (wanted : Option Selection) (order : ProjectionOrder)
    (hlimit : out.limit = other.limit) :
    (fillRow stored wanted order out).value.answer =
      (fillRow stored wanted order other).value.answer := by
  unfold fillRow
  simp only [Metered.value_bind, Checked.value_run]
  cases (View.ofBytes stored).answer with
  | error error => rfl
  | ok v =>
    cases wanted with
    | some wanted => exact (project_same v wanted order hlimit).answer_eq
    | none =>
      simp only [Metered.value_bind, Checked.value_run, Buffer.assign, Buffer.copy_granted,
        Checked.answer_bind]
      cases v.validate.answer with
      | ok u => rfl
      | error error => rfl

theorem answer_fillRow (stored : Bytes) (wanted : Option Selection) (order : ProjectionOrder)
    (out : Buffer) : (fillRow stored wanted order out).value.answer =
      filled order wanted out.limit stored :=
  answer_fillRow_eq stored wanted order rfl

/-- An empty buffer that is not filled is left empty. -/
theorem bytes_fillRow_of_refused (stored : Bytes) (wanted : Option Selection)
    (order : ProjectionOrder) (hempty : out.bytes = Record.emptyBytes) {error : CodecError}
    (h : (fillRow stored wanted order out).value.outcome = .error error) :
    (fillRow stored wanted order out).value.buffer.bytes = Record.emptyBytes := by
  revert h
  unfold fillRow
  simp only [Metered.value_bind, Checked.value_run]
  cases (View.ofBytes stored).answer with
  | error error => exact fun _ => hempty
  | ok v =>
    cases wanted with
    | some wanted =>
      intro hrefused
      have hproject := holds_project (r := ⟨out.limit, []⟩) rfl v wanted order
      have houtcome := hproject.outcome.symm.trans hrefused
      cases hkept : Row.project ⟨out.limit, []⟩ v.contents wanted order with
      | ok s => rw [hkept] at houtcome; cases houtcome
      | error error =>
        rw [hkept] at hproject
        have hbytes := hproject.buffer.written.eq_encode
        exact hbytes.trans Record.encode_nil
    | none =>
      simp only [Metered.value_bind, Checked.value_run]
      cases (out.assign v).answer with
      | ok filled => exact fun h => (nomatch h)
      | error error => exact fun _ => hempty

/-- A buffer that is filled keeps its limit, also if it is refused. -/
theorem limit_fillRow (stored : Bytes) (wanted : Option Selection) (order : ProjectionOrder)
    (out : Buffer) : (fillRow stored wanted order out).value.buffer.limit = out.limit := by
  unfold fillRow
  simp only [Metered.value_bind, Checked.value_run]
  cases (View.ofBytes stored).answer with
  | error error => rfl
  | ok v =>
    cases wanted with
    | some wanted =>
      have hproject := (holds_project (r := ⟨out.limit, []⟩) rfl v wanted order).buffer
      show (project v wanted order out).value.buffer.limit = out.limit
      rw [hproject.limit_eq]
      cases hkept : Row.project ⟨out.limit, []⟩ v.contents wanted order with
      | ok s => rw [Row.project_granted hkept]; rfl
      | error error => rfl
    | none =>
      simp only [Metered.value_bind, Checked.value_run, Buffer.assign, Buffer.copy_granted,
        Checked.answer_bind]
      cases v.validate.answer with
      | ok u => rfl
      | error error => rfl

/-- **Rows are filled or refused by the limits of their buffers alone.** -/
theorem fillRows_told (order : ProjectionOrder) (wanted : Option Selection)
    (pairs : List (Bytes × Bytes)) (old : List Buffer) :
    let ran := (fillRows wanted order pairs old).value
    (ran.1.map Buffer.bytes, ran.2) = filledAll order wanted (Buffer.limits old) pairs := by
  induction pairs generalizing old with
  | nil => rfl
  | cons pair pairs ih =>
    obtain ⟨key, stored⟩ := pair
    have hfirst : (old.head?.getD Buffer.new).limit = Buffer.limits old 0 := by
      rw [List.head?_eq_getElem?, Buffer.limits]
    have hshift : (fun i => Buffer.limits old (i + 1)) = Buffer.limits old.tail := by
      funext i
      rw [Buffer.limits, Buffer.limits, List.getElem?_tail]
    have hfilled := answer_fillRow stored wanted order (old.head?.getD Buffer.new)
    simp only [fillRows, filledAll, Metered.value_bind]
    rw [hshift, ← hfirst, ← hfilled, Edited.answer, ← ih old.tail]
    cases (fillRow stored wanted order (old.head?.getD Buffer.new)).value.outcome with
    | error error => rfl
    | ok u => rfl

end RowStore

/-! ## 3. Every call goes as it is told -/

namespace RowStore

variable {α : Type}

theorem reply_conclude (client : RowStore) (key : Bytes) (answer : Except CodecError Unit)
    (result : α) (rows : α → List Bytes) :
    (client.conclude key answer result).reply rows = Reply.of key answer (rows result) := by
  cases answer <;> rfl

theorem client_conclude (client : RowStore) (key : Bytes) (answer : Except CodecError Unit)
    (result : α) : (client.conclude key answer result).client = client := by
  cases answer <;> rfl

/-- **What a merger lays over a stored row** hangs on the limit of its buffer alone, and the limit
    stays. -/
theorem merge_told (merger : Merger) {base : View} (hbase : 4 ≤ base.bytes.length) (values : View) :
    (merger.merge base values).value.2.map View.bytes =
        (mergeInto base values (.unused merger.scratch.limit)).value.answer ∧
      (merger.merge base values).value.1.scratch.limit = merger.scratch.limit := by
  have hsame : (mergeInto base values merger.scratch).value.Same
      (mergeInto base values (.unused merger.scratch.limit)).value :=
    mergeInto_same hbase values rfl
  rw [Merger.map_bytes_merge]
  exact ⟨hsame.answer_eq, limit_mergeInto hbase values merger.scratch⟩

end RowStore

namespace Call

variable (client : RowStore) (m : MemoryStore)

theorem insert_goes_as_told (key : Bytes) (values : View) :
    (insert key values).GoesAsTold client m := by
  have hanswer := values.answer_validate
  constructor <;>
    simp only [run, question, Question.told, RowStore.insert, Checked.value_run, hanswer]
  case reply_eq => cases values.contents.verdict <;> rfl
  case store_eq => cases values.contents.verdict <;> rfl
  case client => cases values.contents.verdict <;> exact .refl client

theorem delete_goes_as_told (key : Bytes) : (delete key).GoesAsTold client m := by
  have hserve : (Program.ask (Request.delete key)).run m = (m.contains key, m.erase key) := rfl
  constructor <;>
    simp only [run, question, Question.told, RowStore.delete, Program.run_bind, hserve]
  case reply_eq => cases m.contains key <;> rfl
  case store_eq => cases m.contains key <;> rfl
  case client => cases m.contains key <;> exact .refl client

theorem read_goes_as_told (key : Bytes) (wanted : Option Selection) (result : Buffer) :
    (read key wanted result).GoesAsTold client m := by
  have hserve : (Program.ask (Request.read key)).run m = (m[key]?, m) := rfl
  have hempty := result.bytes_clear
  cases hstored : m[key]? with
  | none =>
    constructor <;>
      simp only [run, question, Question.told, RowStore.read, Program.run_bind, hserve, hstored]
    case reply_eq => exact congrArg (fun bytes => Reply.mk .notFound [] [bytes]) hempty
    case store_eq => rfl
    case client => exact .refl client
  | some stored =>
    have hfilled := RowStore.answer_fillRow stored wanted client.order result.clear.value
    rw [Buffer.limit_clear, Edited.answer] at hfilled
    constructor <;>
      simp only [run, question, Question.told, RowStore.read, Program.run_bind, hserve, hstored,
        Program.run_pure, Metered.value_bind, Metered.value_pure, RowStore.reply_conclude,
        RowStore.client_conclude, limits, Option.map_some, ← hfilled]
    case reply_eq =>
      cases houtcome : (RowStore.fillRow stored wanted client.order
        result.clear.value).value.outcome with
      | ok u => rfl
      | error error =>
        rw [RowStore.bytes_fillRow_of_refused stored wanted client.order hempty houtcome]
        rfl
    case store_eq =>
      cases (RowStore.fillRow stored wanted client.order result.clear.value).value.outcome <;> rfl
    case client => exact ⟨rfl, rfl⟩

/-- The buffer of a read keeps its limit, however the read is answered. -/
theorem limit_read (key : Bytes) (wanted : Option Selection) (result : Buffer) :
    ((client.read key wanted result).run m).1.value.result.limit = result.limit := by
  have hserve : (Program.ask (Request.read key)).run m = (m[key]?, m) := rfl
  simp only [RowStore.read, Program.run_bind, hserve]
  cases m[key]? with
  | none => rfl
  | some stored =>
    have hfilled := RowStore.limit_fillRow stored wanted client.order result.clear.value
    simp only [Program.run_pure, Metered.value_bind, Metered.value_pure]
    unfold RowStore.conclude
    split <;> exact hfilled

theorem scan_goes_as_told (key : Bytes) (count : Nat) (wanted : Option Selection)
    (result : List Buffer) : (scan key count wanted result).GoesAsTold client m := by
  have hserve : (Program.ask (Request.scan key count)).run m = (some (m.pairsFrom key count), m) :=
    rfl
  have hfilled := RowStore.fillRows_told client.order wanted (m.pairsFrom key count) result
  constructor <;>
    simp only [run, question, Question.told, RowStore.scan, Program.run_bind, hserve,
      Program.run_pure, Metered.value_bind, Metered.value_pure, RowStore.reply_conclude,
      RowStore.client_conclude, limits]
  case reply_eq => rw [← hfilled]
  case client => exact .refl client

theorem update_goes_as_told (key : Bytes) (values : View) :
    (update key values).GoesAsTold client m := by
  have hserve : (Program.ask (Request.read key)).run m = (m[key]?, m) := rfl
  cases hstored : m[key]? with
  | none =>
    constructor <;>
      simp only [run, question, Question.told, RowStore.update, Program.run_bind, hserve, hstored]
    case reply_eq => rfl
    case store_eq => rfl
    case client => exact .refl client
  | some stored =>
    have hview := View.answer_ofBytes stored
    by_cases hshort : stored.length < 4
    · rw [if_pos hshort] at hview
      constructor <;>
        simp only [run, question, Question.told, RowStore.update, Program.run_bind, hserve, hstored,
          Metered.value_bind, Checked.value_run, hview, Option.map_some, RowStore.laidOver]
      case reply_eq => rfl
      case store_eq => rfl
      case client => exact ⟨rfl, rfl⟩
    · rw [if_neg hshort] at hview
      have hbase : 4 ≤ (View.mk stored).bytes.length := Nat.le_of_not_lt hshort
      obtain ⟨hlaid, hlimit⟩ := RowStore.merge_told client.merger hbase values
      have htold : RowStore.laidOver client.merger.scratch.limit stored values =
          (client.merger.merge ⟨stored⟩ values).value.2.map View.bytes := by
        rw [RowStore.laidOver, hview]
        exact hlaid.symm
      constructor <;>
        simp only [run, question, Question.told, RowStore.update, Program.run_bind, hserve, hstored,
          Metered.value_bind, Checked.value_run, hview, Option.map_some, htold]
      case reply_eq => cases (client.merger.merge ⟨stored⟩ values).value.2 <;> rfl
      case store_eq => cases (client.merger.merge ⟨stored⟩ values).value.2 <;> rfl
      case client =>
        cases (client.merger.merge ⟨stored⟩ values).value.2 <;> exact ⟨rfl, hlimit⟩

/-- **Every call goes as it is told**, over any store and from any client. -/
theorem goes_as_told (call : Call) : call.GoesAsTold client m := by
  cases call with
  | insert key values => exact insert_goes_as_told client m key values
  | update key values => exact update_goes_as_told client m key values
  | delete key => exact delete_goes_as_told client m key
  | read key wanted result => exact read_goes_as_told client m key wanted result
  | scan key count wanted result => exact scan_goes_as_told client m key count wanted result

end Call

/-! ## 4. What is told of failed calls -/

/-- Dropping a key that is not there drops nothing. -/
theorem MemoryStore.erase_of_absent {m : MemoryStore} {key : Bytes} (h : m.contains key = false) :
    Std.ExtTreeMap.erase m key = m := by
  refine Std.ExtTreeMap.ext_getElem? fun other => ?_
  grind

/-- What was merged is records. -/
theorem valid_of_mergeInto {base update : View} (hbase : 4 ≤ base.bytes.length)
    (hupdate : 4 ≤ update.bytes.length) {out : Buffer} {bytes : Bytes}
    (h : (mergeInto base update out).value.answer = .ok bytes) :
    Record.Valid base.bytes ∧ Record.Valid update.bytes := by
  have hmerge := holds_mergeInto (r := ⟨out.limit, []⟩) rfl hbase update
  obtain ⟨u, houtcome, -⟩ := Answer.map_eq_ok.1 h
  cases hlaid : Row.overlay ⟨out.limit, []⟩ base.contents update.contents with
  | error error =>
    rw [hlaid] at hmerge
    cases houtcome.symm.trans hmerge.outcome
  | ok s =>
    obtain ⟨u, hbaseVerdict, hlaid⟩ := Answer.bind_eq_ok.1 hlaid
    obtain ⟨v, hupdateVerdict, -⟩ := Answer.bind_eq_ok.1 hlaid
    have hbaseFault := Contents.verdict_eq_ok.1 hbaseVerdict
    have hupdateFault := Contents.verdict_eq_ok.1 hupdateVerdict
    exact ⟨⟨_, Record.written_of_fault_none hbase hbaseFault⟩,
      ⟨_, Record.written_of_fault_none hupdate hupdateFault⟩⟩

namespace Question

variable {order : ProjectionOrder} {limit : Nat} {limits : Nat → Nat} {m : MemoryStore}

/-- **Reading leaves the store as it was**, however it is answered. -/
theorem told_read (key : Bytes) (wanted : Option Selection) :
    (told order limit limits m (.read key wanted)).2 = m := by
  simp only [told]
  rcases m[key]?.map (RowStore.filled order wanted (limits 0)) with _ | error | row <;> rfl

/-- **A question that is not answered with `ok` leaves the store as it was.** -/
theorem told_of_failed {question : Question}
    (h : (question.told order limit limits m).1.status ≠ .ok) :
    (question.told order limit limits m).2 = m := by
  cases question with
  | insert key values =>
    revert h
    simp only [told]
    cases values.contents.verdict with
    | ok u => exact fun h => absurd rfl h
    | error error => exact fun _ => rfl
  | update key values =>
    revert h
    simp only [told]
    rcases m[key]?.map fun stored => RowStore.laidOver limit stored values with _ | row | error
    · exact fun _ => rfl
    · exact fun _ => rfl
    · exact fun h => absurd rfl h
  | delete key =>
    revert h
    simp only [told]
    cases hcontains : m.contains key with
    | true => exact fun h => absurd rfl h
    | false => exact fun _ => MemoryStore.erase_of_absent hcontains
  | read key wanted => exact told_read key wanted
  | scan key count wanted => rfl

/-- A row that is not read is answered with no field. -/
theorem told_read_of_failed {key : Bytes} {wanted : Option Selection}
    (h : (told order limit limits m (.read key wanted)).1.status ≠ .ok) :
    (told order limit limits m (.read key wanted)).1.rows = [Record.emptyBytes] := by
  revert h
  simp only [told]
  rcases m[key]?.map (RowStore.filled order wanted (limits 0)) with _ | error | row
  · exact fun _ => rfl
  · exact fun _ => rfl
  · exact fun h => absurd rfl h

/-- **Only records are laid over records.** -/
theorem told_update_granted {key : Bytes} {values : View} (hvalues : 4 ≤ values.bytes.length)
    (h : (told order limit limits m (.update key values)).1.status = .ok) :
    ∃ stored, m[key]? = some stored ∧ Record.Valid stored ∧ Record.Valid values.bytes := by
  cases hstored : m[key]? with
  | none => rw [told, hstored] at h; cases h
  | some stored =>
    rw [told, hstored, Option.map_some] at h
    cases hlaid : RowStore.laidOver limit stored values with
    | error error => rw [hlaid] at h; cases h
    | ok row =>
      obtain ⟨base, hview, hmerged⟩ := Answer.bind_eq_ok.1 hlaid
      rw [View.answer_ofBytes] at hview
      split at hview
      · cases hview
      · rename_i hheader
        cases hview
        exact ⟨stored, rfl, valid_of_mergeInto (Nat.le_of_not_lt hheader) hvalues hmerged⟩

end Question

/-! ## 5. As if it had not been made -/

namespace Call

variable {a b : RowStore} {m : MemoryStore}

/-- **Clients that are alike, and calls that ask the same under the same limits, are answered the
    same** and leave the same store and clients that are alike. -/
theorem run_of_alike (h : a.Alike b) {call other : Call} (hasked : call.asked = other.asked) :
    (call.run a m).1 = (other.run b m).1 ∧ (call.run a m).2.2 = (other.run b m).2.2 ∧
      (call.run a m).2.1.Alike (other.run b m).2.1 := by
  obtain ⟨hquestion, hlimits⟩ := Prod.mk.inj hasked
  have hcall := goes_as_told a m call
  have hother := goes_as_told b m other
  rw [hcall.reply_eq, hcall.store_eq, hother.reply_eq, hother.store_eq, hquestion, hlimits,
    h.order_eq, h.limit_eq]
  exact ⟨rfl, rfl, hcall.client.trans (h.trans hother.client.symm)⟩

/-- The same of one call after the other. -/
theorem runAll_of_alike (h : a.Alike b) {calls others : List Call}
    (hasked : calls.map asked = others.map asked) :
    (runAll a m calls).1 = (runAll b m others).1 ∧
      (runAll a m calls).2.2 = (runAll b m others).2.2 := by
  induction calls generalizing a b m others with
  | nil =>
    cases others with
    | nil => exact ⟨rfl, rfl⟩
    | cons other others => cases hasked
  | cons call calls ih =>
    cases others with
    | nil => cases hasked
    | cons other others =>
      obtain ⟨hfirst, hrest⟩ := List.cons.inj hasked
      obtain ⟨hreply, hstore, hleft⟩ := run_of_alike (m := m) h hfirst
      obtain ⟨hreplies, hstores⟩ := ih (m := (call.run a m).2.2) hleft hrest
      simp only [runAll]
      rw [hstore] at hreplies hstores ⊢
      exact ⟨List.cons_eq_cons.2 ⟨hreply, hreplies⟩, hstores⟩

end Call

/-- **A call that fails leaves no trace.** Whatever a client did before and whatever bytes are
    stored: a call that is not answered with `ok` leaves the store as it was, and reads and scans
    always do. An update is answered with `ok` only if it lays a record over a record, and a read
    that is not leaves its buffer without a field and under its limit. After a call that was not
    answered with `ok`, all later calls are answered, and leave the store, as if it had not been
    made; the buffers that they are given may have been written to by the call, so only their limits
    have to be the same. -/
theorem failed_calls_leave_no_trace (client : RowStore) (m : MemoryStore) :
    (∀ call : Call, (call.run client m).1.status ≠ .ok → (call.run client m).2.2 = m) ∧
    (∀ key wanted result, ((Call.read key wanted result).run client m).2.2 = m) ∧
    (∀ key count wanted result, ((Call.scan key count wanted result).run client m).2.2 = m) ∧
    (∀ key values, 4 ≤ values.bytes.length →
      ((Call.update key values).run client m).1.status = .ok →
        ∃ stored, m[key]? = some stored ∧ Record.Valid stored ∧ Record.Valid values.bytes) ∧
    (∀ key wanted result,
      ((Call.read key wanted result).run client m).1.status ≠ .ok →
        ((Call.read key wanted result).run client m).1.rows = [Record.emptyBytes] ∧
          ((client.read key wanted result).run m).1.value.result.limit = result.limit) ∧
    ∀ failed : Call, (failed.run client m).1.status ≠ .ok →
      ∀ later others : List Call, later.map Call.asked = others.map Call.asked →
        let left := (failed.run client m).2
        (Call.runAll left.1 left.2 later).1 = (Call.runAll client m others).1 ∧
          (Call.runAll left.1 left.2 later).2.2 = (Call.runAll client m others).2.2 := by
  have hstore : ∀ call : Call, (call.run client m).1.status ≠ .ok →
      (call.run client m).2.2 = m := by
    intro call hfailed
    have hcall := Call.goes_as_told client m call
    rw [hcall.reply_eq] at hfailed
    rw [hcall.store_eq]
    exact Question.told_of_failed hfailed
  refine ⟨hstore, fun key wanted result => ?_, fun key count wanted result => ?_,
    fun key values hvalues hok => ?_, fun key wanted result hfailed => ?_,
    fun failed hfailed later others hasked => ?_⟩
  · rw [(Call.goes_as_told client m _).store_eq]
    exact Question.told_read key wanted
  · rw [(Call.goes_as_told client m _).store_eq]
    rfl
  · rw [(Call.goes_as_told client m _).reply_eq] at hok
    exact Question.told_update_granted hvalues hok
  · rw [(Call.goes_as_told client m _).reply_eq] at hfailed ⊢
    exact ⟨Question.told_read_of_failed hfailed, Call.limit_read client m key wanted result⟩
  · intro left
    have hleft : left.2 = m := hstore failed hfailed
    rw [hleft]
    exact Call.runAll_of_alike (Call.goes_as_told client m failed).client hasked

/-- The merger admits values of two bytes. An update is refused after its first field was laid over
    the stored row, and what it left in the client's buffers shows neither in the store nor in the
    updates and reads that follow, though the store also holds bytes that are no record. -/
theorem update_refused_halfway_leaves_no_trace :
    let row : Bytes := Record.encode [⟨[97], [1]⟩, ⟨[98], [2]⟩]
    let m : MemoryStore := ((∅ : MemoryStore).insert [1] row).insert [2] [1, 0, 0, 0, 9]
    let client : RowStore := ⟨⟨⟨Record.emptyBytes, 2, 64⟩⟩, .source, []⟩
    let failed : Call := .update [1] ⟨Record.encode [⟨[97], [7]⟩, ⟨[98], [5, 5, 5]⟩]⟩
    let later : List Call := [
      .update [1] ⟨Record.encode [⟨[99], [6]⟩]⟩,
      .read [2] none Buffer.new,
      .scan [] 9 (some (.list [[97], [99]])) []]
    let left := (failed.run client m).2
    (failed.run client m).1 = ⟨.error, [⟨[1], .fieldTooLarge 3 2⟩], []⟩ ∧
      left.1.merger.scratch.bytes = Record.emptyBytes ∧ left.2 = m ∧
      (Call.runAll left.1 left.2 later).1 = (Call.runAll client m later).1 ∧
      (Call.runAll client m later).1 = [
        ⟨.ok, [], []⟩,
        ⟨.error, [⟨[2], .malformed 4 .truncatedLength⟩], [Record.emptyBytes]⟩,
        ⟨.error, [⟨[], .malformed 4 .truncatedLength⟩],
          [Record.encode [⟨[97], [1]⟩, ⟨[99], [6]⟩]]⟩] := by
  intro row m client failed later left
  have hreply : (failed.run client m).1 = ⟨.error, [⟨[1], .fieldTooLarge 3 2⟩], []⟩ := by decide
  have hfailed : (failed.run client m).1.status ≠ .ok := by
    rw [hreply]
    decide
  have htrace : left.2 = m ∧
      (Call.runAll left.1 left.2 later).1 = (Call.runAll client m later).1 := by
    obtain ⟨hstore, -, -, -, -, hlater⟩ := failed_calls_leave_no_trace client m
    exact ⟨hstore failed hfailed, (hlater failed hfailed later later rfl).1⟩
  exact ⟨hreply, by decide, htrace.1, htrace.2, by decide⟩

end FieldRecords
