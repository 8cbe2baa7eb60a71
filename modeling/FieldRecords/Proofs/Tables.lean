import FieldRecords.Store.Engines
import FieldRecords.Store.RowStore
import FieldRecords.Proofs.Merging
import FieldRecords.Proofs.Projecting

/-!
# A row store is a table of rows

A table maps keys to lists of fields (`Table`). A row store over a memory store keeps a table as
bytes: under every key the written form of the row (`Table.Stored`). What is asked of a table needs
no buffers (`Question`), while a call on a row store brings a question together with the buffers
that are to be filled (`Call`).

Filling a buffer from a stored row leaves the fields that are selected (`holds_fillRow`,
`value_fillRows`), and each call answers what the table answers and leaves the bytes of the table
that is left (`run_call`). **So any calls, one after the other, are answered as by the table**,
whatever the client's own buffers and the buffers of the calls held before
(`row_store_answers_table`).
-/

namespace FieldRecords

/-! ## 1. Tables -/

/-- Rows by key, in key order. -/
abbrev Table := Std.ExtTreeMap Bytes (List Field) compare

/-- What a table can be asked. -/
inductive Question where
  | insert (key : Bytes) (values : View)
  | update (key : Bytes) (values : View)
  | delete (key : Bytes)
  | read (key : Bytes) (wanted : Option Selection)
  | scan (key : Bytes) (count : Nat) (wanted : Option Selection)

/-- How a question was answered: the status, what was logged, and the bytes of the rows. -/
structure Reply where
  status : Status
  warnings : List Warning
  rows : List Bytes
deriving DecidableEq

namespace Reply

/-- Bytes that are no record, or a row with too many fields. -/
def refused (key : Bytes) (error : CodecError) : Reply := ⟨.error, [⟨key, error⟩], []⟩

end Reply

namespace Table

/-- The fields that are selected: all of them if no names are given. -/
def select (order : ProjectionOrder) (wanted : Option Selection) (row : List Field) : List Field :=
  match wanted with
  | none => row
  | some wanted => Record.kept row wanted order

/-- The first `count` rows in key order whose key is not below `key`. -/
def rowsFrom (t : Table) (key : Bytes) (count : Nat) : List (Bytes × List Field) :=
  (t.toList.filter fun pair => compare pair.1 key != .lt).take count

/-- **What a table answers to a question, and the table that is left.** Values that are no record
    change nothing, and neither does an update that would leave more fields than a record can
    have. -/
def answer (order : ProjectionOrder) (t : Table) : Question → Reply × Table
  | .insert key values =>
    match values.contents.fault with
    | some error => (.refused key error, t)
    | none => (⟨.ok, [], []⟩, t.insert key values.contents.fields)
  | .update key values =>
    match t[key]? with
    | none => (⟨.notFound, [], []⟩, t)
    | some row =>
      match values.contents.fault with
      | some error => (.refused key error, t)
      | none =>
        if Record.maxLength < (Record.overlay row values.contents.fields).length then
          (.refused key .tooManyFields, t)
        else (⟨.ok, [], []⟩, t.insert key (Record.overlay row values.contents.fields))
  | .delete key => (⟨if t.contains key then .ok else .notFound, [], []⟩, t.erase key)
  | .read key wanted =>
    match t[key]? with
    | none => (⟨.notFound, [], [Record.emptyBytes]⟩, t)
    | some row => (⟨.ok, [], [Record.encode (select order wanted row)]⟩, t)
  | .scan key count wanted =>
    let rows := (t.rowsFrom key count).map fun pair => Record.encode (select order wanted pair.2)
    (⟨.ok, [], rows⟩, t)

/-- Answers to one question after the other. -/
def answers (order : ProjectionOrder) (t : Table) : List Question → List Reply × Table
  | [] => ([], t)
  | question :: questions =>
    let (reply, t) := t.answer order question
    let (replies, t) := t.answers order questions
    (reply :: replies, t)

/-- The table as bytes. -/
def bytes (t : Table) : MemoryStore := t.map fun _ row => Record.encode row

/-- **The store keeps the table**, and every row can be written. -/
structure Stored (t : Table) (m : MemoryStore) : Prop where
  eq_bytes : m = t.bytes
  fits : ∀ (key : Bytes) (row : List Field), t[key]? = some row → Record.Fits row

end Table

/-! ## 2. Calls on a row store -/

/-- A question together with the buffers that are to be filled. -/
inductive Call where
  | insert (key : Bytes) (values : View)
  | update (key : Bytes) (values : View)
  | delete (key : Bytes)
  | read (key : Bytes) (wanted : Option Selection) (result : Buffer)
  | scan (key : Bytes) (count : Nat) (wanted : Option Selection) (result : List Buffer)

/-- How a call was answered, told without the buffers. -/
def RowStore.Outcome.reply {α : Type} (o : RowStore.Outcome α) (rows : α → List Bytes) : Reply :=
  ⟨o.status, o.warnings, rows o.result⟩

namespace Call

/-- What is asked, without the buffers. -/
def question : Call → Question
  | insert key values => .insert key values
  | update key values => .update key values
  | delete key => .delete key
  | read key wanted _ => .read key wanted
  | scan key count wanted _ => .scan key count wanted

/-- Records that are given have a count, and buffers that are given have no limit of their own. -/
def Proper : Call → Prop
  | insert _ values => 4 ≤ values.bytes.length
  | update _ values => 4 ≤ values.bytes.length
  | delete _ => True
  | read _ _ result => result.limit = Record.maxLength
  | scan _ _ _ result => ∀ b ∈ result, b.limit = Record.maxLength

instance : (call : Call) → Decidable call.Proper
  | insert _ _ => inferInstanceAs (Decidable (_ ≤ _))
  | update _ _ => inferInstanceAs (Decidable (_ ≤ _))
  | delete _ => inferInstanceAs (Decidable True)
  | read _ _ _ => inferInstanceAs (Decidable (_ = _))
  | scan _ _ _ _ => inferInstanceAs (Decidable (∀ _ ∈ _, _))

/-- One call of a client on a store: the reply, the client and the store that are left. -/
def run (client : RowStore) (m : MemoryStore) : Call → Reply × RowStore × MemoryStore
  | insert key values =>
    let (outcome, m) := (client.insert key values).run m
    (outcome.value.reply fun _ => [], outcome.value.client, m)
  | update key values =>
    let (outcome, m) := (client.update key values).run m
    (outcome.value.reply fun _ => [], outcome.value.client, m)
  | delete key =>
    let (outcome, m) := (client.delete key).run m
    (outcome.value.reply fun _ => [], outcome.value.client, m)
  | read key wanted result =>
    let (outcome, m) := (client.read key wanted result).run m
    (outcome.value.reply fun b => [b.bytes], outcome.value.client, m)
  | scan key count wanted result =>
    let (outcome, m) := (client.scan key count wanted result).run m
    (outcome.value.reply fun bs => bs.map Buffer.bytes, outcome.value.client, m)

/-- One call after the other. -/
def runAll (client : RowStore) (m : MemoryStore) : List Call → List Reply × RowStore × MemoryStore
  | [] => ([], client, m)
  | call :: calls =>
    let (reply, client, m) := call.run client m
    let (replies, client, m) := runAll client m calls
    (reply :: replies, client, m)

end Call

/-! ## 3. Tables as bytes -/

namespace MemoryStore

/-- In key order, what is not below a key is what is left when everything below it is skipped. -/
theorem dropWhile_eq_filter {β : Type} (key : Bytes) {pairs : List (Bytes × β)}
    (h : pairs.Pairwise fun a b => compare a.1 b.1 = .lt) :
    (pairs.dropWhile fun pair => compare pair.1 key == .lt) =
      pairs.filter fun pair => compare pair.1 key != .lt := by
  induction pairs with
  | nil => rfl
  | cons first pairs ih =>
    obtain ⟨hfirst, hrest⟩ := List.pairwise_cons.1 h
    by_cases hbelow : compare first.1 key = .lt
    · rw [List.dropWhile_cons_of_pos (by simp [hbelow]), List.filter_cons_of_neg (by simp [hbelow])]
      exact ih hrest
    · -- everything behind a key that is not below is not below either
      have hall : (first :: pairs).filter (fun pair => compare pair.1 key != .lt) =
          first :: pairs := by
        refine List.filter_eq_self.2 fun pair hpair => ?_
        rcases List.mem_cons.1 hpair with rfl | hpair
        · simp [hbelow]
        · rw [bne_iff_ne]
          intro hless
          exact hbelow (Std.TransCmp.lt_trans (hfirst pair hpair) hless)
      rw [hall, List.dropWhile_cons_of_neg (by simp [hbelow])]

/-- **A scan finds the first pairs, in key order, whose keys are not below the one it starts
    from.** -/
theorem pairsFrom_eq (m : MemoryStore) (key : Bytes) (count : Nat) :
    m.pairsFrom key count =
      (m.toList.filter fun pair => compare pair.1 key != .lt).take count := by
  rw [pairsFrom, dropWhile_eq_filter key Std.ExtTreeMap.ordered_keys_toList]

end MemoryStore

namespace Table

variable {t : Table} {m : MemoryStore}

theorem getElem?_bytes (t : Table) (key : Bytes) : t.bytes[key]? = t[key]?.map Record.encode :=
  Std.ExtTreeMap.getElem?_map

theorem bytes_insert (t : Table) (key : Bytes) (row : List Field) :
    bytes (t.insert key row) = t.bytes.insert key (Record.encode row) := by
  refine Std.ExtTreeMap.ext_getElem? fun other => ?_
  rw [getElem?_bytes, Std.ExtTreeMap.getElem?_insert, Std.ExtTreeMap.getElem?_insert,
    getElem?_bytes]
  split <;> rfl

theorem bytes_erase (t : Table) (key : Bytes) : bytes (t.erase key) = t.bytes.erase key := by
  refine Std.ExtTreeMap.ext_getElem? fun other => ?_
  rw [getElem?_bytes, Std.ExtTreeMap.getElem?_erase, Std.ExtTreeMap.getElem?_erase, getElem?_bytes]
  split <;> rfl

theorem stored_empty : Stored ∅ ∅ := by
  refine ⟨?_, fun key row h => ?_⟩
  · refine Std.ExtTreeMap.ext_getElem? fun key => ?_
    rw [getElem?_bytes, Std.ExtTreeMap.getElem?_empty, Std.ExtTreeMap.getElem?_empty]
    rfl
  · rw [Std.ExtTreeMap.getElem?_empty] at h
    cases h

/-- Storing the written form of a row stores the row. -/
theorem Stored.insert (h : Stored t m) (key : Bytes) {bytes : Bytes} {row : List Field}
    (hrow : Record.Written bytes row) : Stored (t.insert key row) (m.insert key bytes) := by
  refine ⟨by rw [h.eq_bytes, bytes_insert, hrow.eq_encode], fun other fields hother => ?_⟩
  rw [Std.ExtTreeMap.getElem?_insert] at hother
  split at hother
  · cases hother
    exact hrow.fits
  · exact h.fits other fields hother

/-- Dropping the bytes of a key drops the row. -/
theorem Stored.erase (h : Stored t m) (key : Bytes) : Stored (t.erase key) (m.erase key) := by
  refine ⟨by rw [h.eq_bytes, bytes_erase], fun other fields hother => ?_⟩
  rw [Std.ExtTreeMap.getElem?_erase] at hother
  split at hother
  · cases hother
  · exact h.fits other fields hother

/-- **The pairs that a scan finds are the rows of the table, written.** -/
theorem Stored.pairsFrom (h : Stored t m) (key : Bytes) (count : Nat) :
    m.pairsFrom key count =
      (t.rowsFrom key count).map fun pair => (pair.1, Record.encode pair.2) := by
  have hlist : t.bytes.toList = t.toList.map fun pair => (pair.1, Record.encode pair.2) :=
    Std.ExtTreeMap.toList_map
  rw [h.eq_bytes, MemoryStore.pairsFrom_eq, hlist, rowsFrom, List.map_take, List.filter_map]
  rfl

/-- Every row that a scan finds can be written. -/
theorem Stored.fits_of_mem_rowsFrom (h : Stored t m) {key : Bytes} {count : Nat}
    {pair : Bytes × List Field} (hpair : pair ∈ t.rowsFrom key count) : Record.Fits pair.2 := by
  have hmem := (List.mem_filter.1 (List.mem_of_mem_take hpair)).1
  exact h.fits pair.1 pair.2 (Std.ExtTreeMap.mem_toList_iff_getElem?_eq_some.1 hmem)

end Table

/-! ## 4. Filling buffers from stored rows -/

section

variable {row : List Field} {out : Buffer}

/-- **A buffer is filled with the selected fields of a stored row**, whatever it held before. -/
theorem holds_fillRow (hrow : Record.Fits row) (hlimit : out.limit = Record.maxLength)
    (wanted : Option Selection) (order : ProjectionOrder) :
    (RowStore.fillRow (Record.encode row) wanted order out).value.Holds
      (⟨Record.maxLength, Table.select order wanted row⟩, .ok ()) := by
  let stored : View := ⟨Record.encode row⟩
  have hwritten : Record.Written stored.bytes row := Record.written_encode hrow
  have hheader := hwritten.header
  have hcontents := View.contents_of_written hwritten
  have hview : (View.ofBytes (Record.encode row)).answer = .ok stored :=
    View.answer_ofBytes_of_written hwritten
  unfold RowStore.fillRow
  rw [Metered.value_bind, Checked.value_run, hview]
  cases wanted with
  | some wanted =>
    exact holds_project_of_written hwritten wanted order hlimit
  | none =>
    have hassign := Buffer.agree_assign (r := ⟨Record.maxLength, []⟩) hlimit hheader
    rw [hcontents] at hassign
    show Edited.Holds (Metered.value (_ >>= _)) _
    rw [Metered.value_bind, Checked.value_run]
    generalize (out.assign stored).answer = answer at hassign ⊢
    cases hassign with
    | ok hholds => exact ⟨hholds, rfl⟩

/-- **A stored row is read as what is selected of it**, from any store and into any buffer without a
    limit of its own. -/
theorem RowStore.run_read_stored {σ : Type} [KeyValueStore σ] (rows : RowStore) {key : Bytes}
    {s : σ} (hstored : (KeyValueStore.serve (.read key) s).1 = some (Record.encode row))
    (hrow : Record.Fits row) (wanted : Option Selection) {result : Buffer}
    (hlimit : result.limit = Record.maxLength) :
    let called := (rows.read key wanted result).run s
    (called.1.value.reply fun b => [b.bytes]) =
        ⟨.ok, [], [Record.encode (Table.select rows.order wanted row)]⟩ ∧
      called.1.value.client = { rows with readBuffer := Record.encode row } ∧
      called.2 = (KeyValueStore.serve (.read key) s).2 := by
  obtain ⟨hbuffer, houtcome⟩ :=
    holds_fillRow hrow ((Buffer.limit_clear result).trans hlimit) wanted rows.order
  have hbytes := hbuffer.written.eq_encode
  have hserve : (Program.ask (Request.read key)).run s =
      (some (Record.encode row), (KeyValueStore.serve (.read key) s).2) := by
    rw [Program.run_ask, ← hstored]
  simp only [RowStore.read, Program.run_bind]
  rw [hserve]
  simp only [Program.run_pure, Metered.value_bind, Metered.value_pure, houtcome, and_true]
  exact ⟨congrArg (fun bytes => Reply.mk .ok [] [bytes]) hbytes, rfl⟩

/-- **One buffer is filled for every stored row**, whatever the old buffers held and however many
    there were. -/
theorem value_fillRows (wanted : Option Selection) (order : ProjectionOrder)
    {pairs : List (Bytes × List Field)} (hrows : ∀ pair ∈ pairs, Record.Fits pair.2)
    {old : List Buffer} (hold : ∀ b ∈ old, b.limit = Record.maxLength) :
    let filled := (RowStore.fillRows wanted order
      (pairs.map fun pair => (pair.1, Record.encode pair.2)) old).value
    filled.2 = .ok () ∧
      filled.1.map Buffer.bytes =
        pairs.map fun pair => Record.encode (Table.select order wanted pair.2) := by
  induction pairs generalizing old with
  | nil => exact ⟨rfl, rfl⟩
  | cons pair pairs ih =>
    have hlimit : (old.head?.getD Buffer.new).limit = Record.maxLength := by
      cases old with
      | nil => rfl
      | cons b old => exact hold b List.mem_cons_self
    have hfill := holds_fillRow (hrows pair List.mem_cons_self) hlimit wanted order
    have htail : ∀ b ∈ old.tail, b.limit = Record.maxLength :=
      fun b hb => hold b (List.mem_of_mem_tail hb)
    have hrest := ih (fun other hother => hrows other (List.mem_cons_of_mem _ hother)) htail
    simp only [List.map_cons, RowStore.fillRows, Metered.value_bind]
    obtain ⟨hbuffer, houtcome⟩ := hfill
    obtain ⟨hrest, hbytes⟩ := hrest
    rw [houtcome]
    simp only [Metered.value_bind, Metered.value_pure]
    refine ⟨hrest, ?_⟩
    rw [List.map_cons, hbytes, hbuffer.written.eq_encode]

end

/-! ## 5. One call -/

/-- A client that serves a table: its projections have the given order, and its own buffer has no
    limit of its own. What the buffer holds does not matter. -/
structure RowStore.Serves (client : RowStore) (order : ProjectionOrder) : Prop where
  order_eq : client.order = order
  limit_eq : client.merger.scratch.limit = Record.maxLength

/-- **A call goes as the table answers**: the reply is the same, the store keeps the table that is
    left, and the client can serve on. -/
structure Call.Follows (order : ProjectionOrder) (left : Reply × RowStore × MemoryStore)
    (told : Reply × Table) : Prop where
  reply_eq : left.1 = told.1
  client : left.2.1.Serves order
  store : told.2.Stored left.2.2

namespace Call

variable {client : RowStore} {order : ProjectionOrder} {t : Table} {m : MemoryStore}

theorem follows_insert (hclient : client.Serves order) (h : t.Stored m) (key : Bytes)
    {values : View} (hheader : 4 ≤ values.bytes.length) :
    Follows order ((insert key values).run client m) (t.answer order (.insert key values)) := by
  have hanswer := values.answer_validate
  simp only [run, RowStore.insert, Table.answer, Checked.value_run, hanswer, Contents.verdict]
  cases hfault : values.contents.fault with
  | some error => exact ⟨rfl, hclient, h⟩
  | none => exact ⟨rfl, hclient, h.insert key (Record.written_of_fault_none hheader hfault)⟩

theorem follows_delete (hclient : client.Serves order) (h : t.Stored m) (key : Bytes) :
    Follows order ((delete key).run client m) (t.answer order (.delete key)) := by
  have hcontains : m.contains key = t.contains key := by
    rw [h.eq_bytes]
    exact Std.ExtTreeMap.contains_map
  have hserve : (Program.ask (Request.delete key)).run m = (t.contains key, m.erase key) := by
    rw [Program.run_ask, ← hcontains]
    rfl
  simp only [run, RowStore.delete, Table.answer, Program.run_bind]
  rw [hserve]
  cases t.contains key with
  | true => exact ⟨rfl, hclient, h.erase key⟩
  | false => exact ⟨rfl, hclient, h.erase key⟩

/-- What a store answers to a read is the row, written. -/
theorem run_ask_read (h : t.Stored m) (key : Bytes) :
    (Program.ask (Request.read key)).run m = (t[key]?.map Record.encode, m) := by
  show (m[key]?, m) = _
  rw [h.eq_bytes, Table.getElem?_bytes]

theorem follows_read (hclient : client.Serves order) (h : t.Stored m) (key : Bytes)
    (wanted : Option Selection) {result : Buffer} (hlimit : result.limit = Record.maxLength) :
    Follows order ((read key wanted result).run client m) (t.answer order (.read key wanted)) := by
  obtain ⟨rfl, hscratch⟩ := hclient
  simp only [run, Table.answer]
  cases hrow : t[key]? with
  | none =>
    simp only [RowStore.read, Program.run_bind]
    rw [run_ask_read h, hrow]
    refine ⟨?_, ⟨rfl, hscratch⟩, h⟩
    show Reply.mk .notFound [] [result.clear.value.bytes] = ⟨.notFound, [], [Record.emptyBytes]⟩
    rw [Buffer.bytes_clear]
  | some row =>
    have hstored : (KeyValueStore.serve (.read key) m).1 = some (Record.encode row) :=
      (congrArg Prod.fst (run_ask_read h key)).trans (by rw [hrow]; rfl)
    obtain ⟨hreply, hleft, hstore⟩ := RowStore.run_read_stored client hstored
      (h.fits key row hrow) wanted hlimit
    have hserves : RowStore.Serves { client with readBuffer := Record.encode row } client.order :=
      ⟨rfl, hscratch⟩
    have hkept : t.Stored (KeyValueStore.serve (.read key) m).2 := h
    rw [← hleft] at hserves
    rw [← hstore] at hkept
    exact ⟨hreply, hserves, hkept⟩

theorem follows_scan (hclient : client.Serves order) (h : t.Stored m) (key : Bytes) (count : Nat)
    (wanted : Option Selection) {result : List Buffer}
    (hlimit : ∀ b ∈ result, b.limit = Record.maxLength) :
    Follows order ((scan key count wanted result).run client m)
      (t.answer order (.scan key count wanted)) := by
  obtain ⟨rfl, hscratch⟩ := hclient
  have hserve : (Program.ask (Request.scan key count)).run m =
      (some ((t.rowsFrom key count).map fun pair => (pair.1, Record.encode pair.2)), m) := by
    show (some (m.pairsFrom key count), m) = _
    rw [h.pairsFrom]
  obtain ⟨houtcome, hbytes⟩ := value_fillRows wanted client.order
    (fun pair (hpair : pair ∈ t.rowsFrom key count) => h.fits_of_mem_rowsFrom hpair) hlimit
  simp only [run, RowStore.scan, Table.answer, Program.run_bind]
  rw [hserve]
  simp only [Program.run_pure, Metered.value_bind, Metered.value_pure, houtcome]
  refine ⟨?_, ⟨rfl, hscratch⟩, h⟩
  exact congrArg (Reply.mk .ok []) hbytes

/-- **An update lays the given fields over the row**, or leaves the table as it was. The merger's
    buffer is written over either way. -/
theorem follows_update (hclient : client.Serves order) (h : t.Stored m) (key : Bytes)
    (values : View) :
    Follows order ((update key values).run client m) (t.answer order (.update key values)) := by
  obtain ⟨rfl, hscratch⟩ := hclient
  simp only [run, RowStore.update, Table.answer, Program.run_bind]
  rw [run_ask_read h]
  cases hrow : t[key]? with
  | none => exact ⟨rfl, ⟨rfl, hscratch⟩, h⟩
  | some row =>
    have hfits := h.fits key row hrow
    let stored : View := ⟨Record.encode row⟩
    have hwritten : Record.Written stored.bytes row := Record.written_encode hfits
    have hheader := hwritten.header
    have hview : (View.ofBytes (Record.encode row)).answer = .ok stored :=
      View.answer_ofBytes_of_written hwritten
    have hmerge := holds_mergeInto (r := ⟨Record.maxLength, row⟩) hscratch hheader values
    rw [View.contents_of_written hwritten,
      Row.overlay_stored hfits fun f hf => View.fits_of_mem_contents hf] at hmerge
    simp only [Option.map_some, Metered.value_bind, Checked.value_run, hview, Merger.merge,
      Metered.value_pure]
    generalize (mergeInto stored values client.merger.scratch).value = edited at hmerge ⊢
    obtain ⟨merged, outcome⟩ := edited
    cases hfault : values.contents.fault with
    | some error =>
      rw [hfault] at hmerge
      obtain ⟨hbuffer, rfl⟩ := hmerge
      exact ⟨rfl, ⟨rfl, hbuffer.limit_eq⟩, h⟩
    | none =>
      rw [hfault] at hmerge
      by_cases hlong : Record.maxLength < (Record.overlay row values.contents.fields).length
      · simp only [if_pos hlong] at hmerge ⊢
        obtain ⟨hbuffer, rfl⟩ := hmerge
        exact ⟨rfl, ⟨rfl, hbuffer.limit_eq⟩, h⟩
      · simp only [if_neg hlong] at hmerge ⊢
        obtain ⟨hbuffer, rfl⟩ := hmerge
        exact ⟨rfl, ⟨rfl, hbuffer.limit_eq⟩, h.insert key hbuffer.written⟩

end Call

/-- **Every call goes as the table answers the question.** -/
theorem run_call {client : RowStore} {order : ProjectionOrder} {t : Table} {m : MemoryStore}
    (hclient : client.Serves order) (h : t.Stored m) {call : Call} (hcall : call.Proper) :
    Call.Follows order (call.run client m) (t.answer order call.question) := by
  cases call with
  | insert key values => exact Call.follows_insert hclient h key hcall
  | update key values => exact Call.follows_update hclient h key values
  | delete key => exact Call.follows_delete hclient h key
  | read key wanted result => exact Call.follows_read hclient h key wanted hcall
  | scan key count wanted result => exact Call.follows_scan hclient h key count wanted hcall

/-! ## 6. One call after the other -/

/-- **All calls go as the table answers the questions**, one after the other. -/
theorem run_calls {client : RowStore} {order : ProjectionOrder} {t : Table} {m : MemoryStore}
    (hclient : client.Serves order) (h : t.Stored m) {calls : List Call}
    (hcalls : ∀ call ∈ calls, call.Proper) :
    (Call.runAll client m calls).1 = (t.answers order (calls.map Call.question)).1 ∧
      (t.answers order (calls.map Call.question)).2.Stored (Call.runAll client m calls).2.2 := by
  induction calls generalizing client t m with
  | nil => exact ⟨rfl, h⟩
  | cons call calls ih =>
    obtain ⟨hreply, hnext, hstore⟩ := run_call hclient h (hcalls call List.mem_cons_self)
    obtain ⟨hreplies, hleft⟩ :=
      ih hnext hstore fun other hother => hcalls other (List.mem_cons_of_mem _ hother)
    simp only [Call.runAll, Table.answers, List.map_cons]
    exact ⟨List.cons_eq_cons.2 ⟨hreply, hreplies⟩, hleft⟩

/-- **A row store over a memory store answers as a table of rows.** From no rows on, whatever is
    asked one after the other, every reply is the reply of the table, and the store keeps the table
    that is left. The settings count only with their order of projections, as long as they do not
    limit fields; what the buffers of the client and of the calls held before counts for nothing,
    since the table is asked without them. -/
theorem row_store_answers_table (config : Config)
    (hlimit : Record.maxLength ≤ config.maxFieldLength)
    (hroom : config.initialCapacity ≤ Room.maxBytes) (calls : List Call)
    (hcalls : ∀ call ∈ calls, call.Proper) :
    ∃ fresh, RowStore.withConfig config = .ok fresh ∧
      ∀ client : RowStore, client.order = fresh.order →
        client.merger.scratch.limit = fresh.merger.scratch.limit →
        let ran := Call.runAll client ∅ calls
        let told := Table.answers config.projectionOrder ∅ (calls.map Call.question)
        ran.1 = told.1 ∧ ran.2.2 = told.2.bytes ∧
          ∀ (key : Bytes) (row : List Field), told.2[key]? = some row → Record.Fits row := by
  have hask : Room.ask config.initialCapacity 1 = .ok () := by
    rw [Room.ask_eq_ok_iff, Nat.mul_one]
    exact hroom
  have hmake := Buffer.agree_withConfig config
  rw [Row.withConfig, Row.withCapacity, hask] at hmake
  obtain ⟨b, hmade, hbuffer⟩ :
      ∃ b, Buffer.withConfig config = .ok b ∧ b.limit = Record.maxLength := by
    generalize Buffer.withConfig config = made at hmake ⊢
    cases hmake with
    | ok hholds => exact ⟨_, rfl, hholds.limit_eq.trans (Nat.min_eq_right hlimit)⟩
  refine ⟨⟨⟨b⟩, config.projectionOrder, []⟩, ?_, fun client horder hscratch => ?_⟩
  · unfold RowStore.withConfig Merger.withConfig
    rw [hmade]
    rfl
  · have hserves : client.Serves config.projectionOrder := ⟨horder, hscratch.trans hbuffer⟩
    obtain ⟨hreplies, hstored⟩ := run_calls hserves Table.stored_empty hcalls
    exact ⟨hreplies, hstored.eq_bytes, hstored.fits⟩

/-- Two rows and a broken one, an update that replaces, repeats and adds names, a projection that
    asks for a name twice, a scan from between the keys, and a row that is gone. The buffers hold
    no records at the start. -/
theorem row_store_answers_nine_questions :
    let config : Config := ⟨64, Record.maxLength, .request⟩
    let junk : Buffer := ⟨[7], Record.maxLength, 1⟩
    let calls : List Call := [
      .insert [1] ⟨Record.encode [⟨[97], [1]⟩, ⟨[98], [2, 2]⟩]⟩,
      .insert [0] ⟨[1, 0, 0, 0]⟩,
      .update [2] ⟨Record.emptyBytes⟩,
      .update [1] ⟨Record.encode [⟨[99], [3]⟩, ⟨[97], [4, 4]⟩, ⟨[97], []⟩]⟩,
      .insert [0, 5] ⟨Record.encode [⟨[98], [7]⟩]⟩,
      .read [1] (some (.list [[99], [97], [99]])) junk,
      .scan [0, 4] 9 none [junk],
      .delete [1],
      .read [1] none junk]
    (∃ fresh, RowStore.withConfig config = .ok fresh) ∧
    (Call.runAll ⟨⟨junk⟩, .request, [9]⟩ ∅ calls).1 = [
      ⟨.ok, [], []⟩,
      ⟨.error, [⟨[0], .malformed 4 .truncatedLength⟩], []⟩,
      ⟨.notFound, [], []⟩,
      ⟨.ok, [], []⟩,
      ⟨.ok, [], []⟩,
      ⟨.ok, [], [Record.encode [⟨[99], [3]⟩, ⟨[97], []⟩]]⟩,
      ⟨.ok, [], [Record.encode [⟨[98], [7]⟩],
        Record.encode [⟨[97], []⟩, ⟨[98], [2, 2]⟩, ⟨[99], [3]⟩]]⟩,
      ⟨.ok, [], []⟩,
      ⟨.notFound, [], [Record.emptyBytes]⟩] := by
  intro config junk calls
  obtain ⟨fresh, hfresh, hserve⟩ :=
    row_store_answers_table config (by decide) (by decide) calls (by decide)
  cases hfresh
  have hreplies := (hserve ⟨⟨junk⟩, .request, [9]⟩ rfl rfl).1
  rw [hreplies]
  exact ⟨⟨_, rfl⟩, by decide⟩

end FieldRecords
