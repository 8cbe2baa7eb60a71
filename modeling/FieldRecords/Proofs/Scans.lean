import FieldRecords.Proofs.FailedCalls
import FieldRecords.Proofs.Selections

/-!
# Scans agree with single reads

A scan fills one buffer after the other from the rows that the store finds, up to the first row that
is refused; a read fills one buffer from one row. How a buffer is filled hangs on its limit alone
(`RowStore.answer_fillRow`), so **what a scan gives is what the reads of its keys give, one by
one**, up to the first read that is refused (`scan_agrees_with_reads`), whatever the buffers held
before and however many there were.
-/

namespace FieldRecords

/-! ## 1. Rows that are granted -/

namespace RowStore

variable {order : ProjectionOrder} {wanted : Option Selection} {limit : Nat}

/-- **Rows that are granted are filled one by one**, and then it goes on with the rest. -/
theorem filledAll_append {before : List (Bytes × Bytes)} {g : Bytes → Bytes}
    (h : ∀ pair ∈ before, filled order wanted limit pair.2 = .ok (g pair.1))
    (rest : List (Bytes × Bytes)) :
    filledAll order wanted (fun _ => limit) (before ++ rest) =
      let behind := filledAll order wanted (fun _ => limit) rest
      ((before.map Prod.fst).map g ++ behind.1, behind.2) := by
  induction before with
  | nil => rfl
  | cons pair before ih =>
    have hfirst := h pair List.mem_cons_self
    have hrest := ih fun other hother => h other (List.mem_cons_of_mem _ hother)
    obtain ⟨key, stored⟩ := pair
    simp only [List.cons_append, filledAll, hfirst, hrest, List.map_cons]

/-- Without a limit of their own, old buffers are under the same limit as new ones. -/
theorem limits_of_unlimited {result : List Buffer}
    (h : ∀ b ∈ result, b.limit = Record.maxLength) :
    Buffer.limits result = fun _ => Record.maxLength := by
  funext i
  rw [Buffer.limits]
  cases hi : result[i]? with
  | none => rfl
  | some b => exact h b (List.mem_of_getElem? hi)

end RowStore

/-! ## 2. One read -/

/-- **A row that is stored is read as it is filled**, or refused for the same reason. -/
theorem Call.reply_read_stored {m : MemoryStore} (client : RowStore) {key stored : Bytes}
    (hstored : m[key]? = some stored) (wanted : Option Selection) (result : Buffer) :
    ((read key wanted result).run client m).1 =
      match RowStore.filled client.order wanted result.limit stored with
      | .ok row => ⟨.ok, [], [row]⟩
      | .error error => ⟨.error, [⟨key, error⟩], [Record.emptyBytes]⟩ := by
  rw [(read_goes_as_told client m key wanted result).reply_eq]
  simp only [question, limits, Question.told, hstored, Option.map_some]
  cases RowStore.filled client.order wanted result.limit stored <;> rfl

/-- What a read answers, told from the outcome. -/
theorem RowStore.filled_of_read {m : MemoryStore} (client : RowStore) {key stored : Bytes}
    (hstored : m[key]? = some stored) (wanted : Option Selection) (result : Buffer) :
    let outcome := ((client.read key wanted result).run m).1.value
    (outcome.status = .ok ∧
      filled client.order wanted result.limit stored = .ok outcome.result.bytes) ∨
    ∃ error, outcome.status = .error ∧
      filled client.order wanted result.limit stored = .error error := by
  intro outcome
  have hreply : outcome.reply (fun b => [b.bytes]) = _ :=
    Call.reply_read_stored client hstored wanted result
  cases hfilled : filled client.order wanted result.limit stored with
  | ok row =>
    rw [hfilled] at hreply
    have hrows : [outcome.result.bytes] = [row] := congrArg Reply.rows hreply
    exact .inl ⟨congrArg Reply.status hreply, by rw [List.singleton_inj.1 hrows]⟩
  | error error =>
    rw [hfilled] at hreply
    exact .inr ⟨error, congrArg Reply.status hreply, rfl⟩

/-! ## 3. The keys of a scan -/

namespace MemoryStore

variable {m : MemoryStore} {start : Bytes} {count : Nat}

/-- **A scan finds the first keys that are not below the one it starts from.** -/
theorem map_fst_pairsFrom (m : MemoryStore) (start : Bytes) (count : Nat) :
    (m.pairsFrom start count).map Prod.fst =
      (m.keys.filter fun key => start ≤ key).take count := by
  have hbelow : (fun pair : Bytes × Bytes => compare pair.1 start != .lt) =
      (fun key : Bytes => decide (start ≤ key)) ∘ Prod.fst := by
    funext pair
    have hle : start ≤ pair.1 ↔ compare pair.1 start ≠ .lt :=
      (not_congr Bytes.compare_eq_lt_iff).symm
    simp only [Function.comp_apply, hle]
    cases compare pair.1 start <;> rfl
  rw [pairsFrom_eq, hbelow, List.map_take, ← List.filter_map, Std.ExtTreeMap.map_fst_toList_eq_keys]

/-- What a scan finds is stored. -/
theorem getElem?_of_mem_pairsFrom {pair : Bytes × Bytes} (h : pair ∈ m.pairsFrom start count) :
    m[pair.1]? = some pair.2 := by
  rw [pairsFrom_eq] at h
  exact Std.ExtTreeMap.mem_toList_iff_getElem?_eq_some.1
    (List.mem_filter.1 (List.mem_of_mem_take h)).1

end MemoryStore

/-! ## 4. A scan and the reads of its keys -/

namespace RowStore

variable {start : Bytes} {count : Nat}

/-- Into buffers without a limit of their own a scan fills row after row under no limit. -/
theorem reply_scan_unlimited (client : RowStore) (m : MemoryStore) (start : Bytes) (count : Nat)
    (wanted : Option Selection) {result : List Buffer}
    (hresult : ∀ b ∈ result, b.limit = Record.maxLength) :
    let scanned := ((client.scan start count wanted result).run m).1.value
    let rows := filledAll client.order wanted (fun _ => Record.maxLength) (m.pairsFrom start count)
    scanned.reply (fun bs => bs.map Buffer.bytes) = Reply.of start rows.2 rows.1 := by
  have hreply := (Call.scan_goes_as_told client m start count wanted result).reply_eq
  simp only [Call.question, Call.limits, Question.told, limits_of_unlimited hresult] at hreply
  exact hreply

/-- **Rows that are granted in front are what a scan leaves first**, and how it goes on is told by
    the rows behind them. -/
theorem scan_behind_granted (client : RowStore) {m : MemoryStore} {wanted : Option Selection}
    {result : List Buffer} (hresult : ∀ b ∈ result, b.limit = Record.maxLength)
    {before after : List (Bytes × Bytes)} (hparted : m.pairsFrom start count = before ++ after)
    {g : Bytes → Bytes}
    (hgranted : ∀ pair ∈ before,
      filled client.order wanted Record.maxLength pair.2 = .ok (g pair.1)) :
    let scanned := ((client.scan start count wanted result).run m).1.value
    let behind := filledAll client.order wanted (fun _ => Record.maxLength) after
    scanned.status = (Reply.of start behind.2 []).status ∧
      scanned.result.map Buffer.bytes = (before.map Prod.fst).map g ++ behind.1 := by
  intro scanned behind
  have hscan := client.reply_scan_unlimited m start count wanted hresult
  rw [hparted, filledAll_append hgranted] at hscan
  change scanned.reply _ = Reply.of start behind.2 _ at hscan
  revert hscan
  cases behind.2 with
  | ok u => exact fun hscan => ⟨congrArg Reply.status hscan, congrArg Reply.rows hscan⟩
  | error error => exact fun hscan => ⟨congrArg Reply.status hscan, congrArg Reply.rows hscan⟩

/-- A store that cannot scan leaves no buffer. -/
theorem scan_unsupported {σ : Type} [KeyValueStore σ] (client : RowStore) {s : σ}
    (h : (KeyValueStore.serve (.scan start count) s).1 = none) (wanted : Option Selection)
    (result : List Buffer) :
    ((client.scan start count wanted result).run s).1.value =
      ⟨client, .notImplemented, [], []⟩ := by
  have hserve : (Program.ask (Request.scan start count)).run s =
      (none, (KeyValueStore.serve (.scan start count) s).2) := by
    rw [Program.run_ask, ← h]
  simp only [scan, Program.run_bind]
  rw [hserve]
  rfl

end RowStore

/-- **A scan gives what the reads of its keys give.** The keys are the first ones in byte order that
    are not below the start, and each of them is read as it is or refused. If all are read, the scan
    answers with `ok` and leaves what was read, byte for byte and nothing else; otherwise it answers
    with an error and leaves what was read before the first key that is refused. The stored bytes
    may be anything, the buffers may hold anything and be any number, and any clients may read, as
    long as they project in the same order. Of a store that cannot scan nothing is left. -/
theorem scan_agrees_with_reads (m : MemoryStore) (client : RowStore) (start : Bytes) (count : Nat)
    (wanted : Option Selection) (result : List Buffer)
    (hresult : ∀ b ∈ result, b.limit = Record.maxLength)
    (reader : Bytes → RowStore) (hreader : ∀ key, (reader key).order = client.order)
    (buffer : Bytes → Buffer) (hbuffer : ∀ key, (buffer key).limit = Record.maxLength) :
    let keys := (m.keys.filter fun key => start ≤ key).take count
    let read := fun key => (((reader key).read key wanted (buffer key)).run m).1.value
    let scanned := ((client.scan start count wanted result).run m).1.value
    (∀ key ∈ keys, (read key).status = .ok ∨ (read key).status = .error) ∧
    ((∀ key ∈ keys, (read key).status = .ok) →
      scanned.status = .ok ∧
        scanned.result.map Buffer.bytes = keys.map fun key => (read key).result.bytes) ∧
    (∀ before key after, keys = before ++ key :: after →
      (∀ other ∈ before, (read other).status = .ok) → (read key).status = .error →
        scanned.status = .error ∧
          scanned.result.map Buffer.bytes = before.map fun other => (read other).result.bytes) ∧
    ∀ {σ : Type} [KeyValueStore σ] (s : σ), (KeyValueStore.serve (.scan start count) s).1 = none →
      let refused := ((client.scan start count wanted result).run s).1.value
      refused.status = .notImplemented ∧ refused.result = [] := by
  intro keys read scanned
  have hkeys : keys = (m.pairsFrom start count).map Prod.fst :=
    (m.map_fst_pairsFrom start count).symm
  have hread : ∀ pair ∈ m.pairsFrom start count,
      ((read pair.1).status = .ok ∧
        RowStore.filled client.order wanted Record.maxLength pair.2 =
          .ok (read pair.1).result.bytes) ∨
      ∃ error, (read pair.1).status = .error ∧
        RowStore.filled client.order wanted Record.maxLength pair.2 = .error error := by
    intro pair hpair
    have hcases := (reader pair.1).filled_of_read (MemoryStore.getElem?_of_mem_pairsFrom hpair)
      wanted (buffer pair.1)
    rwa [hreader, hbuffer] at hcases
  -- keys in front that are read have filled rows, whatever follows them
  have hfront : ∀ before after, m.pairsFrom start count = before ++ after →
      (∀ pair ∈ before, (read pair.1).status = .ok) →
        let behind := RowStore.filledAll client.order wanted (fun _ => Record.maxLength) after
        scanned.status = (Reply.of start behind.2 []).status ∧
          scanned.result.map Buffer.bytes =
            (before.map Prod.fst).map (fun key => (read key).result.bytes) ++ behind.1 := by
    intro before after hparted hbefore
    refine client.scan_behind_granted hresult hparted fun pair hpair => ?_
    obtain ⟨-, hfilled⟩ | ⟨error, hstatus, -⟩ :=
      hread pair (hparted ▸ List.mem_append_left after hpair)
    · exact hfilled
    · cases (hbefore pair hpair).symm.trans hstatus
  refine ⟨fun key hkey => ?_, fun hall => ?_, fun before key after hparted hbefore hrefused => ?_,
    fun s hnone => ?_⟩
  · rw [hkeys] at hkey
    obtain ⟨pair, hpair, rfl⟩ := List.mem_map.1 hkey
    exact (hread pair hpair).imp And.left fun ⟨_, hstatus, _⟩ => hstatus
  · rw [hkeys, List.forall_mem_map] at hall
    obtain ⟨hstatus, hrows⟩ := hfront _ [] (List.append_nil _).symm hall
    rw [hkeys]
    exact ⟨hstatus, hrows.trans (List.append_nil _)⟩
  · rw [hkeys, List.map_eq_append_iff] at hparted
    obtain ⟨first, rest, hparted, rfl, hrest⟩ := hparted
    obtain ⟨pair, last, rfl, rfl, -⟩ := List.map_eq_cons_iff.1 hrest
    rw [List.forall_mem_map] at hbefore
    obtain ⟨hstatus, hrows⟩ := hfront _ _ hparted hbefore
    obtain ⟨hgranted, -⟩ | ⟨error, -, hfilled⟩ :=
      hread pair (hparted ▸ List.mem_append_right first List.mem_cons_self)
    · cases hrefused.symm.trans hgranted
    · rw [RowStore.filledAll, hfilled] at hstatus hrows
      exact ⟨hstatus, hrows.trans (List.append_nil _)⟩
  · have hleft := client.scan_unsupported hnone wanted result
    exact ⟨congrArg RowStore.Outcome.status hleft, congrArg RowStore.Outcome.result hleft⟩

/-- A broken row between two others, and more old buffers than rows, which hold no records. The scan
    of all keys stops at the broken row, the scan from behind it gives the last row, and a store
    that cannot scan gives nothing. The reads that are compared with it ask for the same field,
    though the client that reads has another buffer. -/
theorem scan_stops_at_broken_row :
    let m : MemoryStore :=
      ((Std.ExtTreeMap.insert ∅ [1] (Record.encode [⟨[97], [1]⟩, ⟨[98], [2]⟩])).insert
        [2] [1, 0, 0, 0]).insert [3] (Record.encode [⟨[97], [3, 3]⟩])
    let wanted : Option Selection := some (.list [[97]])
    let junk : Buffer := ⟨[7], Record.maxLength, 1⟩
    let client : RowStore := ⟨⟨junk⟩, .request, []⟩
    let scan := fun start => ((client.scan start 9 wanted [junk, junk, junk, junk]).run m).1.value
    (scan []).status = .error ∧
      (scan []).result.map Buffer.bytes = [Record.encode [⟨[97], [1]⟩]] ∧
      (scan [2, 0]).status = .ok ∧
      (scan [2, 0]).result.map Buffer.bytes = [Record.encode [⟨[97], [3, 3]⟩]] ∧
      ((client.scan [] 9 wanted [junk]).run (UnscannableStore.mk m)).1.value.result = [] := by
  intro m wanted junk client scan
  let reader : Bytes → RowStore := fun _ => ⟨⟨Buffer.new⟩, .request, [9]⟩
  let buffer : Bytes → Buffer := fun _ => junk
  have hall := scan_agrees_with_reads m client [] 9 wanted [junk, junk, junk, junk] (by decide)
    reader (fun _ => rfl) buffer fun _ => rfl
  have hbehind := scan_agrees_with_reads m client [2, 0] 9 wanted [junk, junk, junk, junk]
    (by decide) reader (fun _ => rfl) buffer fun _ => rfl
  obtain ⟨-, -, hrefused, -⟩ := hall
  obtain ⟨-, hread, -, -⟩ := hbehind
  obtain ⟨hstatus, hrows⟩ := hrefused [[1]] [2] [[3]] (by decide) (by decide) (by decide)
  obtain ⟨hstatus', hrows'⟩ := hread (by decide)
  refine ⟨hstatus, hrows.trans (by decide), hstatus', hrows'.trans (by decide), ?_⟩
  have hunsupported := scan_agrees_with_reads m client [] 9 wanted [junk] (by decide)
    reader (fun _ => rfl) buffer fun _ => rfl
  exact (hunsupported.2.2.2 (UnscannableStore.mk m) rfl).2

end FieldRecords
