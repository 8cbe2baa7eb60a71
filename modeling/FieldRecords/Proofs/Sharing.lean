import FieldRecords.Proofs.Tables
import FieldRecords.Proofs.Updates

/-!
# Clients that share a store

Every client has a row store of its own and makes one call after the other (`Client`). A turn of a
client serves one request of the call it is at, so the requests of other clients can fall between
the two requests of an update, and what an update writes may have been read long before.

What a client relies on is that a store answers with records (`Request.FindsRecords`), and what it
guarantees is that it writes only records (`Request.WritesRecords`). A program that keeps to this
(`Program.Keeps`) keeps to it wherever it was interrupted, with whatever it has read and merged so
far, and that is the invariant: a call begins so (`Call.keeps_program`), every turn leaves it so
(`Client.Sound.turn`), hence every run does. **No order of the turns corrupts a row, or lets a call
fail** (`no_interleaving_corrupts_row`).
-/

namespace FieldRecords

/-! ## 1. Clients -/

/-- The bytes are a record. -/
def Record.Valid (bytes : Bytes) : Prop := ∃ fields, Record.Written bytes fields

/-- An operation of a row store as a program that says how the call was answered, and what the
    client is left with. -/
def RowStore.replying {α : Type} (operation : Program (Metered (RowStore.Outcome α)))
    (rows : α → List Bytes) : Program (Reply × RowStore) := do
  let outcome ← operation
  return (outcome.value.reply rows, outcome.value.client)

/-- **A call as a program over the store.** -/
def Call.program (client : RowStore) : Call → Program (Reply × RowStore)
  | insert key values => RowStore.replying (client.insert key values) fun _ => []
  | update key values => RowStore.replying (client.update key values) fun _ => []
  | delete key => RowStore.replying (client.delete key) fun _ => []
  | read key wanted result =>
    RowStore.replying (client.read key wanted result) fun b => [b.bytes]
  | scan key count wanted result =>
    RowStore.replying (client.scan key count wanted result) fun bs => bs.map Buffer.bytes

/-- **Undisturbed, the program goes as the call does.** -/
theorem Call.run_program (client : RowStore) (m : MemoryStore) (call : Call) :
    (call.program client).run m =
      let (reply, client, m) := call.run client m
      ((reply, client), m) := by
  cases call <;> simp only [program, RowStore.replying, Program.run_bind, Program.run_pure, run]

/-- A client: its row store, the calls that are still to be made, the call it is at with the rest of
    its program, and the replies so far. -/
structure Client where
  rows : RowStore
  ahead : List Call
  underWay : Option (Call × Program (Reply × RowStore))
  replies : List Reply

namespace Client

/-- A client before its first call. -/
def start (rows : RowStore) (calls : List Call) : Client := ⟨rows, calls, none, []⟩

/-- **One turn of a client**: it begins its next call, has one request served, or takes the reply of
    the call that is done. -/
def turn (c : Client) (m : MemoryStore) : Client × MemoryStore :=
  match c.underWay with
  | none =>
    match c.ahead with
    | [] => (c, m)
    | call :: ahead => ({ c with ahead, underWay := some (call, call.program c.rows) }, m)
  | some (_, .done (reply, rows)) =>
    ({ c with rows, underWay := none, replies := c.replies ++ [reply] }, m)
  | some (call, program) =>
    let (program, m) := program.tick m
    ({ c with underWay := some (call, program) }, m)

end Client

/-- A store and its clients. -/
abbrev SharedStore (ι : Type) := Shared ι Client MemoryStore

/-! ## 2. What is assumed of a run -/

/-- Records that are given are records, and buffers that are given have no limit of their own. -/
def Call.Sound : Call → Prop
  | insert _ values => Record.Valid values.bytes
  | update _ values => Record.Valid values.bytes
  | delete _ => True
  | read _ _ result => result.limit = Record.maxLength
  | scan _ _ _ result => ∀ b ∈ result, b.limit = Record.maxLength

/-- How many fields the row gets that an update makes of what it is given to read. -/
def Call.rowLength : Call → (request : Request) → request.Reply → Nat
  | update _ values, .read _, some stored =>
    (Record.overlay (View.mk stored).contents.fields values.contents.fields).length
  | _, _, _ => 0

/-- How many fields the row gets if the next request of the client is the read of an update. -/
def Client.rowLength (c : Client) (m : MemoryStore) : Nat :=
  match c.underWay with
  | some (call, .call request _) => call.rowLength request (MemoryStore.serve request m).1
  | _ => 0

/-- **Every row stays below the number of fields that a record can have**, whenever in the run it
    is updated. -/
def Shared.RowsFit {ι : Type} [DecidableEq ι] (w : SharedStore ι) : List ι → Prop
  | [] => True
  | i :: turns =>
    (w.parties i).rowLength w.state ≤ Record.maxLength ∧ (w.turn Client.turn i).RowsFit turns

instance Shared.decidableRowsFit {ι : Type} [DecidableEq ι] :
    (w : SharedStore ι) → (turns : List ι) → Decidable (w.RowsFit turns)
  | _, [] => inferInstanceAs (Decidable True)
  | w, i :: turns =>
    have := decidableRowsFit (w.turn Client.turn i) turns
    inferInstanceAs (Decidable (_ ∧ _))

/-! ## 3. What clients rely on and guarantee -/

/-- Whatever the store keeps is a record. -/
def MemoryStore.KeepsRecords (m : MemoryStore) : Prop :=
  ∀ (key value : Bytes), m[key]? = some value → Record.Valid value

namespace Request

/-- The value that is to be written, if there is one, is a record. -/
def WritesRecords : Request → Prop
  | insert _ value => Record.Valid value
  | update _ value => Record.Valid value
  | _ => True

/-- The values that are found are records. -/
def FindsRecords : (request : Request) → request.Reply → Prop
  | read _, found => ∀ value ∈ found, Record.Valid value
  | scan _ _, found => ∀ pairs ∈ found, ∀ pair ∈ pairs, Record.Valid pair.2
  | _, _ => True

end Request

namespace MemoryStore

variable {m : MemoryStore}

theorem KeepsRecords.insert (h : m.KeepsRecords) (key : Bytes) {value : Bytes}
    (hvalue : Record.Valid value) : KeepsRecords (m.insert key value) := by
  intro other found hfound
  rw [Std.ExtTreeMap.getElem?_insert] at hfound
  split at hfound
  · cases hfound
    exact hvalue
  · exact h other found hfound

theorem KeepsRecords.erase (h : m.KeepsRecords) (key : Bytes) : KeepsRecords (m.erase key) := by
  intro other found hfound
  rw [Std.ExtTreeMap.getElem?_erase] at hfound
  split at hfound
  · cases hfound
  · exact h other found hfound

theorem KeepsRecords.pairsFrom (h : m.KeepsRecords) (key : Bytes) (count : Nat) :
    ∀ pair ∈ m.pairsFrom key count, Record.Valid pair.2 := by
  intro pair hpair
  have hmem := (List.dropWhile_sublist _).subset (List.mem_of_mem_take hpair)
  exact h pair.1 pair.2 (Std.ExtTreeMap.mem_toList_iff_getElem?_eq_some.1 hmem)

/-- **A store of records answers with records, and keeps records** if it is given records. -/
theorem KeepsRecords.serve (h : m.KeepsRecords) {request : Request}
    (hrequest : request.WritesRecords) :
    request.FindsRecords (serve request m).1 ∧ KeepsRecords (serve request m).2 := by
  cases request with
  | insert key value => exact ⟨trivial, h.insert key hrequest⟩
  | read key => exact ⟨fun value hvalue => h key value hvalue, h⟩
  | update key value => exact ⟨trivial, h.insert key hrequest⟩
  | delete key => exact ⟨trivial, h.erase key⟩
  | scan key count =>
    refine ⟨fun pairs hpairs => ?_, h⟩
    cases hpairs
    exact h.pairsFrom key count

end MemoryStore

namespace Program

variable {α β : Type} {expected : (request : Request) → request.Reply → Prop} {ends : α → Prop}

/-- **A program keeps to writing records.** As long as it is answered as expected, every value it
    writes is a record, and when it is done it ends as it should. -/
def Keeps (expected : (request : Request) → request.Reply → Prop) (ends : α → Prop) :
    Program α → Prop
  | done a => ends a
  | call request resume =>
    request.WritesRecords ∧ ∀ reply, expected request reply → (resume reply).Keeps expected ends

theorem keeps_ask {request : Request} (h : request.WritesRecords) :
    (ask request).Keeps expected (expected request) :=
  ⟨h, fun _ hreply => hreply⟩

/-- Work that goes on with the result of other work keeps to it if both do. -/
theorem Keeps.bind {p : Program α} (h : p.Keeps expected ends) {last : β → Prop}
    {next : α → Program β} (hnext : ∀ a, ends a → (next a).Keeps expected last) :
    (p >>= next).Keeps expected last := by
  change (p.andThen next).Keeps expected last
  induction p with
  | done a => exact hnext a h
  | call request resume ih =>
    exact ⟨h.1, fun reply hreply => ih reply (h.2 reply hreply)⟩

/-- Who expects more keeps to it as well. -/
theorem Keeps.of_expected {p : Program α} (h : p.Keeps expected ends)
    {more : (request : Request) → request.Reply → Prop}
    (hmore : ∀ request reply, more request reply → expected request reply) :
    p.Keeps more ends := by
  induction p with
  | done a => exact h
  | call request resume ih =>
    exact ⟨h.1, fun reply hreply => ih reply (h.2 reply (hmore request reply hreply))⟩

end Program

/-! ## 4. Every call keeps to it -/

/-- What a call expects of the store: records, and rows that do not grow too long. -/
def Call.Expects (call : Call) (request : Request) (reply : request.Reply) : Prop :=
  request.FindsRecords reply ∧ call.rowLength request reply ≤ Record.maxLength

/-- A reply without an error, and nothing was logged. -/
structure Reply.Untroubled (reply : Reply) : Prop where
  status_ne : reply.status ≠ .error
  warnings_eq : reply.warnings = []

/-- The client's buffer has no limit of its own. -/
def RowStore.Unlimited (client : RowStore) : Prop :=
  client.merger.scratch.limit = Record.maxLength

/-- An operation ended without an error, and its client can go on. -/
structure RowStore.Outcome.EndsWell {α : Type} (o : RowStore.Outcome α) : Prop where
  status_ne : o.status ≠ .error
  warnings_eq : o.warnings = []
  unlimited : o.client.Unlimited

/-- The same of what is left by a call. -/
structure Call.EndsWell (left : Reply × RowStore) : Prop where
  untroubled : left.1.Untroubled
  unlimited : left.2.Unlimited

/-- Pairs whose values are records, as rows and their written forms. -/
theorem Record.exists_rows {pairs : List (Bytes × Bytes)}
    (h : ∀ pair ∈ pairs, Record.Valid pair.2) :
    ∃ rows : List (Bytes × List Field), (∀ pair ∈ rows, Record.Fits pair.2) ∧
      pairs = rows.map fun pair => (pair.1, Record.encode pair.2) := by
  induction pairs with
  | nil => exact ⟨[], fun _ hpair => absurd hpair List.not_mem_nil, rfl⟩
  | cons pair pairs ih =>
    obtain ⟨fields, hfields⟩ := h pair List.mem_cons_self
    obtain ⟨rows, hrows, rfl⟩ := ih fun other hother => h other (List.mem_cons_of_mem _ hother)
    refine ⟨(pair.1, fields) :: rows, fun other hother => ?_, ?_⟩
    · rcases List.mem_cons.1 hother with rfl | hother
      · exact hfields.fits
      · exact hrows other hother
    · rw [List.map_cons, ← hfields.eq_encode]

namespace RowStore

variable {client : RowStore}

theorem Unlimited.conclude {α : Type} (h : client.Unlimited) (key : Bytes) (result : α) :
    (client.conclude key (.ok ()) result).EndsWell :=
  ⟨nofun, rfl, h⟩

/-- What an operation keeps to, its call keeps to. -/
theorem keeps_replying {α : Type} {operation : Program (Metered (Outcome α))}
    {expected : (request : Request) → request.Reply → Prop}
    (h : operation.Keeps expected fun o => o.value.EndsWell) (rows : α → List Bytes) :
    (replying operation rows).Keeps expected Call.EndsWell :=
  h.bind fun _ ho => ⟨⟨ho.status_ne, ho.warnings_eq⟩, ho.unlimited⟩

theorem keeps_insert (hclient : client.Unlimited) (key : Bytes) {values : View}
    (hvalues : Record.Valid values.bytes) :
    (client.insert key values).Keeps Request.FindsRecords fun o => o.value.EndsWell := by
  obtain ⟨fields, hwritten⟩ := hvalues
  have hanswer : values.validate.answer = .ok () := by
    rw [View.answer_validate, View.contents_of_written hwritten]
    rfl
  have hasked : (Program.ask (.insert key values.bytes)).Keeps Request.FindsRecords fun _ => True :=
    Program.keeps_ask ⟨fields, hwritten⟩
  simp only [insert, Checked.value_run, hanswer]
  exact hasked.bind fun _ _ => hclient.conclude key ()

theorem keeps_delete (hclient : client.Unlimited) (key : Bytes) :
    (client.delete key).Keeps Request.FindsRecords fun o => o.value.EndsWell := by
  have hasked : (Program.ask (.delete key)).Keeps Request.FindsRecords fun _ => True :=
    Program.keeps_ask trivial
  refine hasked.bind fun deleted _ => ?_
  cases deleted with
  | true => exact ⟨nofun, rfl, hclient⟩
  | false => exact ⟨nofun, rfl, hclient⟩

/-- A read fills its buffer from whatever record it is answered with. -/
theorem keeps_read (hclient : client.Unlimited) (key : Bytes) (wanted : Option Selection)
    {result : Buffer} (hlimit : result.limit = Record.maxLength) :
    (client.read key wanted result).Keeps Request.FindsRecords fun o => o.value.EndsWell := by
  have hasked : (Program.ask (.read key)).Keeps Request.FindsRecords fun found =>
      ∀ value ∈ found, Record.Valid value := Program.keeps_ask trivial
  refine hasked.bind fun found hfound => ?_
  cases found with
  | none => exact ⟨nofun, rfl, hclient⟩
  | some stored =>
    obtain ⟨row, hrow⟩ := hfound stored rfl
    have hfill := holds_fillRow hrow.fits ((Buffer.limit_clear result).trans hlimit) wanted
      client.order
    rw [← hrow.eq_encode] at hfill
    have hleft : RowStore.Unlimited { client with readBuffer := stored } := hclient
    show Outcome.EndsWell (conclude _ key
      (fillRow stored wanted client.order result.clear.value).value.outcome _)
    rw [hfill.outcome]
    exact hleft.conclude key _

/-- A scan fills one buffer for every record that it is answered with. -/
theorem keeps_scan (hclient : client.Unlimited) (key : Bytes) (count : Nat)
    (wanted : Option Selection) {result : List Buffer}
    (hlimit : ∀ b ∈ result, b.limit = Record.maxLength) :
    (client.scan key count wanted result).Keeps Request.FindsRecords
      fun o => o.value.EndsWell := by
  have hasked : (Program.ask (.scan key count)).Keeps Request.FindsRecords fun found =>
      ∀ pairs ∈ found, ∀ pair ∈ pairs, Record.Valid pair.2 := Program.keeps_ask trivial
  refine hasked.bind fun found hfound => ?_
  cases found with
  | none => exact ⟨nofun, rfl, hclient⟩
  | some pairs =>
    obtain ⟨rows, hrows, rfl⟩ := Record.exists_rows (hfound pairs rfl)
    have houtcome := (value_fillRows wanted client.order hrows hlimit).1
    show Outcome.EndsWell (conclude client key (fillRows wanted client.order _ result).value.2 _)
    rw [houtcome]
    exact hclient.conclude key _

/-- **An update writes back a record, if it is answered with a record** that does not grow too
    long. What has become of the row since then does not matter. -/
theorem keeps_update (hclient : client.Unlimited) (key : Bytes) {values : View}
    (hvalues : Record.Valid values.bytes) :
    (client.update key values).Keeps (Call.update key values).Expects
      fun o => o.value.EndsWell := by
  obtain ⟨changes, hchanges⟩ := hvalues
  have hasked : (Program.ask (.read key)).Keeps (Call.update key values).Expects
      ((Call.update key values).Expects (.read key)) := Program.keeps_ask trivial
  refine hasked.bind fun found hfound => ?_
  obtain ⟨hfinds, hfit⟩ := hfound
  cases found with
  | none => exact ⟨nofun, rfl, hclient⟩
  | some stored =>
    obtain ⟨row, hrow⟩ := hfinds stored rfl
    rw [Call.rowLength, View.contents_of_written hrow, View.contents_of_written hchanges] at hfit
    have hview : (View.ofBytes stored).answer = .ok ⟨stored⟩ :=
      View.answer_ofBytes_of_written hrow
    have hgranted : (mergeInto ⟨stored⟩ values client.merger.scratch).value.outcome = .ok () :=
      outcome_mergeInto_of_fit hrow hchanges hclient hfit
    have hmerged := holds_mergeInto_granted hrow hchanges hgranted
    simp only [Metered.value_bind, Checked.value_run, hview, Merger.merge, Metered.value_pure,
      hgranted]
    generalize (mergeInto ⟨stored⟩ values client.merger.scratch).value.buffer = merged at hmerged ⊢
    have hwritten : (Program.ask (.update key merged.bytes)).Keeps (Call.update key values).Expects
        ((Call.update key values).Expects (.update key merged.bytes)) :=
      Program.keeps_ask ⟨_, hmerged.written⟩
    have hleft : RowStore.Unlimited ⟨⟨merged⟩, client.order, stored⟩ :=
      hmerged.limit_eq.trans hclient
    exact hwritten.bind fun _ _ => hleft.conclude key ()

end RowStore

/-- **Every call keeps to writing records and ends well**, as long as the store answers with records
    and rows do not grow too long. -/
theorem Call.keeps_program {client : RowStore} (hclient : client.Unlimited) {call : Call}
    (hcall : call.Sound) : (call.program client).Keeps call.Expects Call.EndsWell := by
  have hexpects : ∀ request reply, call.Expects request reply → request.FindsRecords reply :=
    fun _ _ h => h.1
  cases call with
  | insert key values =>
    exact (RowStore.keeps_replying (RowStore.keeps_insert hclient key hcall) _).of_expected hexpects
  | update key values =>
    exact RowStore.keeps_replying (RowStore.keeps_update hclient key hcall) _
  | delete key =>
    exact (RowStore.keeps_replying (RowStore.keeps_delete hclient key) _).of_expected hexpects
  | read key wanted result =>
    exact (RowStore.keeps_replying (RowStore.keeps_read hclient key wanted hcall) _).of_expected
      hexpects
  | scan key count wanted result =>
    exact (RowStore.keeps_replying
      (RowStore.keeps_scan hclient key count wanted hcall) _).of_expected hexpects

/-! ## 5. Turns -/

/-- **What holds of a client between its turns**, wherever it is in a call: the rest of the call
    keeps to writing records, and no reply so far was an error. -/
structure Client.Sound (c : Client) : Prop where
  unlimited : c.rows.Unlimited
  ahead : ∀ call ∈ c.ahead, call.Sound
  underWay : ∀ call program, c.underWay = some (call, program) →
    program.Keeps call.Expects Call.EndsWell
  replies : ∀ reply ∈ c.replies, reply.Untroubled

namespace Client

variable {c : Client} {m : MemoryStore}

theorem sound_start {rows : RowStore} (hrows : rows.Unlimited) {calls : List Call}
    (hcalls : ∀ call ∈ calls, call.Sound) : (start rows calls).Sound where
  unlimited := hrows
  ahead := hcalls
  underWay := nofun
  replies := nofun

/-- **A turn leaves the client sound and the store a store of records.** -/
theorem Sound.turn (hc : c.Sound) (hm : m.KeepsRecords) (hfits : c.rowLength m ≤ Record.maxLength) :
    (c.turn m).1.Sound ∧ (c.turn m).2.KeepsRecords := by
  obtain ⟨rows, ahead, underWay, replies⟩ := c
  obtain ⟨hrows, hahead, hprogram, hreplies⟩ := hc
  match underWay with
  | none =>
    cases ahead with
    | nil => exact ⟨⟨hrows, hahead, hprogram, hreplies⟩, hm⟩
    | cons call ahead =>
      have hcall : call.Sound := hahead call List.mem_cons_self
      have hrest : ∀ other ∈ ahead, other.Sound :=
        fun other hother => hahead other (List.mem_cons_of_mem _ hother)
      refine ⟨⟨hrows, hrest, ?_, hreplies⟩, hm⟩
      intro begun program hbegun
      cases hbegun
      exact Call.keeps_program hrows hcall
  | some (call, .done (reply, left)) =>
    obtain ⟨huntroubled, hleft⟩ := hprogram call _ rfl
    refine ⟨⟨hleft, hahead, nofun, ?_⟩, hm⟩
    intro other hother
    rcases List.mem_append.1 hother with hother | hother
    · exact hreplies other hother
    · rw [List.mem_singleton.1 hother]
      exact huntroubled
  | some (call, .call request resume) =>
    obtain ⟨hwrites, hresume⟩ := hprogram call _ rfl
    obtain ⟨hfinds, hleft⟩ := hm.serve hwrites
    have hanswered : call.Expects request (MemoryStore.serve request m).1 := ⟨hfinds, hfits⟩
    refine ⟨⟨hrows, hahead, ?_, hreplies⟩, hleft⟩
    intro same program hsame
    cases hsame
    exact hresume _ hanswered

end Client

/-! ## 6. Runs -/

namespace Shared

variable {ι : Type} [DecidableEq ι] {w : SharedStore ι}

/-- The store keeps records, and every client is sound. -/
structure Sound (w : SharedStore ι) : Prop where
  state : w.state.KeepsRecords
  parties : ∀ i, (w.parties i).Sound

theorem Sound.turn (h : w.Sound) {i : ι}
    (hfits : (w.parties i).rowLength w.state ≤ Record.maxLength) :
    Sound (w.turn Client.turn i) := by
  obtain ⟨hparty, hstate⟩ := (h.parties i).turn h.state hfits
  refine ⟨hstate, fun j => ?_⟩
  rw [parties_turn]
  split
  · exact hparty
  · exact h.parties j

theorem Sound.run (h : w.Sound) {turns : List ι} (hfits : w.RowsFit turns) :
    Sound (w.run Client.turn turns) := by
  induction turns generalizing w with
  | nil => exact h
  | cons i turns ih => exact ih (h.turn hfits.1) hfits.2

end Shared

/-- **No interleaving of clients corrupts a row.** Any number of clients share a store of records,
    each with a row store of its own and any calls, whose requests are served in any order. As long
    as no row gets more fields than a record can have, the store keeps records, and no call of any
    client ends with an error or logs anything. -/
theorem no_interleaving_corrupts_row {ι : Type} [DecidableEq ι] (m : MemoryStore)
    (rows : ι → RowStore) (calls : ι → List Call) (turns : List ι) (hstored : m.KeepsRecords)
    (hrows : ∀ i, (rows i).merger.scratch.limit = Record.maxLength)
    (hcalls : ∀ i, ∀ call ∈ calls i, call.Sound) :
    let start : SharedStore ι := ⟨m, fun i => .start (rows i) (calls i)⟩
    start.RowsFit turns →
      let left := start.run Client.turn turns
      left.state.KeepsRecords ∧
        ∀ i, ∀ reply ∈ (left.parties i).replies, reply.status ≠ .error ∧ reply.warnings = [] := by
  intro start hfits left
  have hstart : start.Sound := ⟨hstored, fun i => Client.sound_start (hrows i) (hcalls i)⟩
  obtain ⟨hstate, hparties⟩ : left.Sound := hstart.run hfits
  refine ⟨hstate, fun i reply hreply => ?_⟩
  have huntroubled := (hparties i).replies reply hreply
  exact ⟨huntroubled.status_ne, huntroubled.warnings_eq⟩

/-- One client reads a row to update it, the other drops the row and stores a new one, and then the
    first client writes back what it made of the row it read. -/
theorem stale_update_corrupts_nothing :
    let row : Bytes := Record.encode [⟨[97], [1]⟩]
    let other : View := ⟨Record.encode [⟨[99], []⟩]⟩
    let given : View := ⟨Record.encode [⟨[98], [2, 2]⟩, ⟨[97], []⟩]⟩
    let stored : MemoryStore := (∅ : MemoryStore).insert [1] row
    let junk : Buffer := ⟨[7], Record.maxLength, 1⟩
    let client : RowStore := ⟨⟨junk⟩, .request, [9]⟩
    let calls : Bool → List Call := fun
      | true => [.update [1] given, .scan [0] 5 none [junk]]
      | false => [.delete [1], .insert [1] other]
    let turns :=
      [true, true, false, false, false, false, false, false, true, true, true, true, true]
    let start : SharedStore Bool := ⟨stored, fun i => .start client (calls i)⟩
    let left := start.run Client.turn turns
    let merged := Record.encode [⟨[97], []⟩, ⟨[98], [2, 2]⟩]
    left.state.KeepsRecords ∧
      (∀ i, ∀ reply ∈ (left.parties i).replies, reply.status ≠ .error ∧ reply.warnings = []) ∧
      left.state.toList = [([1], merged)] ∧
      (left.parties true).replies = [⟨.ok, [], []⟩, ⟨.ok, [], [merged]⟩] ∧
      (left.parties false).replies = [⟨.ok, [], []⟩, ⟨.ok, [], []⟩] := by
  intro row other given stored junk client calls turns start left merged
  have hempty : MemoryStore.KeepsRecords ∅ := by
    intro key value hfound
    rw [Std.ExtTreeMap.getElem?_empty] at hfound
    cases hfound
  have hstored : stored.KeepsRecords := hempty.insert [1] ⟨_, Record.written_encode (by decide)⟩
  have hgiven : Record.Valid given.bytes := ⟨_, Record.written_encode (by decide)⟩
  have hother : Record.Valid other.bytes := ⟨_, Record.written_encode (by decide)⟩
  have hjunk : ∀ b ∈ [junk], b.limit = Record.maxLength := by decide
  have hcalls : ∀ i, ∀ call ∈ calls i, call.Sound := by
    intro i
    cases i with
    | true => exact List.forall_mem_cons.2 ⟨hgiven, List.forall_mem_singleton.2 hjunk⟩
    | false => exact List.forall_mem_cons.2 ⟨trivial, List.forall_mem_singleton.2 hother⟩
  have hkept : start.RowsFit turns → left.state.KeepsRecords ∧
      ∀ i, ∀ reply ∈ (left.parties i).replies, reply.status ≠ .error ∧ reply.warnings = [] := by
    -- which calls and turns they are need not be looked at
    clear_value stored calls turns
    exact no_interleaving_corrupts_row stored (fun _ => client) calls turns hstored
      (fun _ => rfl) hcalls
  obtain ⟨hstate, hreplies⟩ := hkept (by decide)
  exact ⟨hstate, hreplies, by decide, by decide, by decide⟩

end FieldRecords
