import FieldRecords.Proofs.Footprints
import FieldRecords.Proofs.Sharing

/-!
# Clients with keys of their own

A client that reads, inserts, updates and deletes makes requests about the keys of its calls and no
others. All its calls, one after the other, are one program over the store (`Call.session`), each
turn of which serves one request, so the requests of other clients fall between the read and the
write of an update as well.

Clients whose keys are disjoint are on course whatever the order of their requests
(`Shared.OnCourse`), and so **they end with the store and the replies that they would have had one
after the other** (`disjoint_clients_do_not_interfere`). The buffers of a client are its own, so it
does not matter what they hold, nor what a refused call leaves in them.
-/

namespace FieldRecords

/-! ## 1. Calls about one key -/

/-- The key that a call is about. A scan is about many. -/
def Call.key? : Call → Option Bytes
  | insert key _ => some key
  | update key _ => some key
  | delete key => some key
  | read key _ _ => some key
  | scan _ _ _ _ => none

namespace RowStore

variable {keys : Bytes → Prop} {key : Bytes}

/-- What an operation asks for, its call asks for. -/
theorem confined_replying {α : Type} {n : Nat} {operation : Program (Metered (Outcome α))}
    (h : operation.Confined keys n) (rows : α → List Bytes) :
    (replying operation rows).Confined keys n :=
  h.bind (k := 0) fun _ => Program.confined_done _

theorem confined_insert (hin : keys key) (client : RowStore) (values : View) :
    (client.insert key values).Confined keys 1 := by
  unfold insert
  dsimp only
  split
  · exact (Program.confined_ask rfl hin).bind (k := 0) fun _ => Program.confined_done _
  · exact Program.confined_done _

theorem confined_delete (hin : keys key) (client : RowStore) :
    (client.delete key).Confined keys 1 := by
  refine (Program.confined_ask rfl hin).bind (k := 0) fun deleted => ?_
  cases deleted <;> exact Program.confined_done _

theorem confined_read (hin : keys key) (client : RowStore) (wanted : Option Selection)
    (result : Buffer) : (client.read key wanted result).Confined keys 1 := by
  refine (Program.confined_ask rfl hin).bind (k := 0) fun found => ?_
  cases found <;> exact Program.confined_done _

/-- **An update reads its key, and writes it** if there is a row to be written. -/
theorem confined_update (hin : keys key) (client : RowStore) (values : View) :
    (client.update key values).Confined keys 2 := by
  refine (Program.confined_ask rfl hin).bind (k := 1) fun found => ?_
  cases found with
  | none => exact Program.confined_done _
  | some stored =>
    dsimp only
    split
    · exact (Program.confined_ask rfl hin).bind (k := 0) fun _ => Program.confined_done _
    · exact Program.confined_done _

end RowStore

namespace Call

variable {keys : Bytes → Prop}

/-- **A call about one key makes two requests at most, both about this key.** -/
theorem confined_program {call : Call} {key : Bytes} (hkey : call.key? = some key) (hin : keys key)
    (client : RowStore) : (call.program client).Confined keys 2 := by
  have hone : 1 ≤ 2 := by decide
  cases call with
  | insert k values =>
    cases hkey
    exact (RowStore.confined_replying (RowStore.confined_insert hin client values) _).mono hone
  | update k values =>
    cases hkey
    exact RowStore.confined_replying (RowStore.confined_update hin client values) _
  | delete k =>
    cases hkey
    exact (RowStore.confined_replying (RowStore.confined_delete hin client) _).mono hone
  | read k wanted result =>
    cases hkey
    exact (RowStore.confined_replying (RowStore.confined_read hin client wanted result) _).mono hone
  | scan k count wanted result => cases hkey

/-! ## 2. All calls of a client -/

/-- **The calls of a client as one program**, with all replies and what the client is left with. -/
def session (client : RowStore) : List Call → Program (List Reply × RowStore)
  | [] => return ([], client)
  | call :: calls => do
    let (reply, client) ← call.program client
    let (replies, client) ← session client calls
    return (reply :: replies, client)

/-- **Undisturbed, the program goes as the calls do**, one after the other. -/
theorem run_session (client : RowStore) (m : MemoryStore) (calls : List Call) :
    (session client calls).run m =
      let (replies, client, m) := runAll client m calls
      ((replies, client), m) := by
  induction calls generalizing client m with
  | nil => rfl
  | cons call calls ih =>
    simp only [session, runAll, Program.run_bind, Program.run_pure, run_program, ih]

/-- The requests of all calls are about the keys of the calls. -/
theorem confined_session {calls : List Call}
    (h : ∀ call ∈ calls, ∃ key, call.key? = some key ∧ keys key) (client : RowStore) :
    (session client calls).Confined keys (2 * calls.length) := by
  induction calls generalizing client with
  | nil => exact Program.confined_done _
  | cons call calls ih =>
    obtain ⟨key, hkey, hin⟩ := h call List.mem_cons_self
    have hrest : ∀ client, (session client calls).Confined keys (2 * calls.length) :=
      ih fun other hother => h other (List.mem_cons_of_mem _ hother)
    have hlength : 2 * (call :: calls).length = 2 + 2 * calls.length := by
      rw [List.length_cons]
      omega
    rw [hlength]
    exact (confined_program hkey hin client).bind fun left =>
      (hrest left.2).bind (k := 0) fun _ => Program.confined_done _

end Call

/-! ## 3. Clients that share a store -/

/-- **Clients with disjoint keys do not interfere.** Any number of clients share a store with any
    contents. Each has a row store of its own, with any settings and whatever in its buffers, and
    makes any calls about single keys, none of which another client has. Once their requests have
    all been served, in whatever order, the store is the one that is left when one client after the
    other does all its work, in whatever order, and every client has the same replies; they are
    those that it would have had alone. With two turns for each of its calls a client is done. -/
theorem disjoint_clients_do_not_interfere {ι : Type} [DecidableEq ι] (m : MemoryStore)
    (rows : ι → RowStore) (calls : ι → List Call)
    (hsingle : ∀ i, ∀ call ∈ calls i, call.key?.isSome = true)
    (hdisjoint : ∀ i j, i ≠ j → ∀ call ∈ calls i, ∀ other ∈ calls j, call.key? ≠ other.key?)
    (turns order : List ι) (horder : ∀ i, calls i ≠ [] → i ∈ order) :
    let start : Shared ι (Program (List Reply × RowStore)) MemoryStore :=
      ⟨m, fun i => Call.session (rows i) (calls i)⟩
    let left := start.run Program.tick turns
    let inTurn := start.run Program.finish order
    ((∀ i, 2 * (calls i).length ≤ turns.count i) → ∀ i, (left.parties i).IsDone) ∧
    ((∀ i, (left.parties i).IsDone) →
      left.state = inTurn.state ∧
        ∀ i, ∃ client, left.parties i = .done ((Call.runAll (rows i) m (calls i)).1, client) ∧
          inTurn.parties i = left.parties i) := by
  intro start left inTurn
  let keys : ι → Bytes → Prop := fun i key => ∃ call ∈ calls i, call.key? = some key
  have hkeys : ∀ i j, i ≠ j → ∀ key, keys i key → ¬ keys j key := by
    rintro i j hij key ⟨call, hcall, hkey⟩ ⟨other, hother, hkey'⟩
    exact hdisjoint i j hij call hcall other hother (hkey.trans hkey'.symm)
  have hconfined : ∀ i, (start.parties i).Confined (keys i) (2 * (calls i).length) := by
    intro i
    refine Call.confined_session (fun call hcall => ?_) (rows i)
    obtain ⟨key, hkey⟩ := Option.isSome_iff_exists.1 (hsingle i call hcall)
    exact ⟨key, hkey, call, hcall, hkey⟩
  have hstart := Shared.onCourse_start hconfined
  have hleft := hstart.run hkeys Program.advances_tick turns
  have hinTurn := hstart.run hkeys Program.advances_finish order
  have hdone : ∀ i, (inTurn.parties i).IsDone := by
    intro i
    refine Shared.isDone_run_finish ?_
    by_cases hcalls : calls i = []
    · refine .inl ?_
      show (Call.session (rows i) (calls i)).IsDone
      rw [hcalls]
      exact trivial
    · exact .inr (horder i hcalls)
  refine ⟨fun hturns i => Shared.isDone_run_tick hconfined (hturns i), fun hall => ?_⟩
  have heq : left = inTurn := hleft.eq_of_done hinTurn hall hdone
  refine ⟨congrArg Shared.state heq, fun i => ⟨(Call.runAll (rows i) m (calls i)).2.1, ?_, ?_⟩⟩
  · have halone := (hleft.eq_done (hall i)).1
    rw [show (start.parties i).run start.state = _ from Call.run_session (rows i) m (calls i)]
      at halone
    exact halone
  · rw [heq]

/-- One client updates a row and reads it, and the other finds that its row is no record, drops it
    and stores a new one, all of this between the read and the write of the update. Its buffer has a
    limit of its own, and no buffer holds a record. -/
theorem update_around_other_client :
    let given : View := ⟨Record.encode [⟨[98], [2, 2]⟩, ⟨[97], []⟩]⟩
    let stored : MemoryStore :=
      ((∅ : MemoryStore).insert [1] (Record.encode [⟨[97], [1]⟩])).insert [2] [9]
    let rows : Bool → RowStore := fun
      | true => ⟨⟨⟨[7], Record.maxLength, 1⟩⟩, .request, [9]⟩
      | false => ⟨⟨⟨[], 1, 0⟩⟩, .source, []⟩
    let calls : Bool → List Call := fun
      | true => [.update [1] given, .read [1] (some (.list [[98]])) ⟨[7], 2, 1⟩]
      | false => [.update [2] given, .delete [2], .insert [2] given, .update [2] given]
    let turns :=
      [true, false, false, false, false, false, true, true, false, true, false, false, false]
    let start : Shared Bool (Program (List Reply × RowStore)) MemoryStore :=
      ⟨stored, fun i => Call.session (rows i) (calls i)⟩
    let left := start.run Program.tick turns
    let inTurn := start.run Program.finish [false, true]
    let merged := Record.encode [⟨[97], []⟩, ⟨[98], [2, 2]⟩]
    left.state.toList = [([1], merged), ([2], given.bytes)] ∧ left.state = inTurn.state ∧
      (∃ client, left.parties true =
        .done ([⟨.ok, [], []⟩, ⟨.ok, [], [Record.encode [⟨[98], [2, 2]⟩]]⟩], client) ∧
        inTurn.parties true = left.parties true) ∧
      ∃ client, left.parties false =
        .done ([.refused [2] (.malformed 1 .missingHeader), ⟨.ok, [], []⟩, ⟨.ok, [], []⟩,
          .refused [2] (.fieldTooLarge 2 1)], client) ∧
        inTurn.parties false = left.parties false := by
  intro given stored rows calls turns start left inTurn merged
  have hlist : left.state.toList = [([1], merged), ([2], given.bytes)] := by decide
  have htrue : (Call.runAll (rows true) stored (calls true)).1 =
      [⟨.ok, [], []⟩, ⟨.ok, [], [Record.encode [⟨[98], [2, 2]⟩]]⟩] := by decide
  have hfalse : (Call.runAll (rows false) stored (calls false)).1 =
      [.refused [2] (.malformed 1 .missingHeader), ⟨.ok, [], []⟩, ⟨.ok, [], []⟩,
        .refused [2] (.fieldTooLarge 2 1)] := by decide
  have hsingle : ∀ i, ∀ call ∈ calls i, call.key?.isSome = true := by decide
  have hdisjoint : ∀ i j, i ≠ j → ∀ call ∈ calls i, ∀ other ∈ calls j,
      call.key? ≠ other.key? := by decide
  have hturns : ∀ i, 2 * (calls i).length ≤ turns.count i := by decide
  have horder : ∀ i, calls i ≠ [] → i ∈ [false, true] := fun i _ => by cases i <;> decide
  -- which calls and turns they are need not be looked at any more
  clear_value stored rows calls turns
  obtain ⟨hdone, hsame⟩ :=
    disjoint_clients_do_not_interfere stored rows calls hsingle hdisjoint turns [false, true] horder
  obtain ⟨hstate, hparties⟩ := hsame (hdone hturns)
  exact ⟨hlist, hstate, htrue ▸ hparties true, hfalse ▸ hparties false⟩

end FieldRecords
