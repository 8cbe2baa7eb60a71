import FieldRecords.Metric.Latency
import FieldRecords.Workload.Bench
import FieldRecords.Workload.Draws
import FieldRecords.Proofs.Footprints
import FieldRecords.Proofs.GeneratedRows
import FieldRecords.Proofs.Keys

/-!
# What loading leaves

A loader does nothing to the store but insert the written rows of its ids, one after the other
(`Bench.Loadable.loader_eq`), and it reports nothing but the clearing of its row and the appending
of its fields. The loaders have the ids evenly among them: every id below the number of rows is in
the share of a loader (`Bench.Loadable.mem_ids_iff`), and shares do not overlap
(`Bench.Loadable.mem_idsOf`). Different ids have different keys, so the loaders do not interfere,
and the store that holds the pairs of all ids is where they are on their way to from the start
(`Bench.Loadable.onCourse_atEnd`).

Hence **loading loses and duplicates nothing** (`loading_loses_and_duplicates_nothing`).
-/

namespace FieldRecords

/-! ## 1. Inserting pairs -/

namespace Program

variable {α : Type}

/-- Inserts pairs one after the other. -/
def insertAll (pairs : List (Bytes × Bytes)) (result : α) : Program α :=
  match pairs with
  | [] => done result
  | (key, value) :: pairs => call (.insert key value) fun _ => insertAll pairs result

theorem run_insertAll (pairs : List (Bytes × Bytes)) (result : α) (m : MemoryStore) :
    (insertAll pairs result).run m = (result, m.insertMany pairs) := by
  induction pairs generalizing m with
  | nil =>
    rw [Std.ExtTreeMap.insertMany_nil]
    rfl
  | cons pair pairs ih =>
    rw [Std.ExtTreeMap.insertMany_cons]
    exact ih _

theorem confined_insertAll {keys : Bytes → Prop} {pairs : List (Bytes × Bytes)}
    (h : ∀ pair ∈ pairs, keys pair.1) (result : α) :
    (insertAll pairs result).Confined keys pairs.length := by
  induction pairs with
  | nil => exact confined_done result
  | cons pair pairs ih =>
    have hrest := ih fun other hother => h other (List.mem_cons_of_mem _ hother)
    exact ⟨⟨pair.1, rfl, h pair List.mem_cons_self⟩, fun _ => hrest⟩

end Program

/-! ## 2. One loader -/

/-- A written record is inserted, and nothing is reported. -/
theorem RowStore.insert_of_holds {b : Buffer} {r : Row} (h : b.Holds r) (client : RowStore)
    (key : Bytes) :
    client.insert key b.view =
      .call (.insert key (Record.encode r.fields)) fun _ =>
        .done ⟨client.conclude key (.ok ()) (), []⟩ := by
  have hvalid : b.view.validate.run = ⟨.ok (), []⟩ := by
    rw [View.validate_eq, Buffer.contents_of_holds h]
    rfl
  rw [RowStore.insert, hvalid, ← h.written.eq_encode]
  rfl

namespace Bench

variable {U Z T : Type} [TimeTally T] {b : Bench U Z}

/-- What is stored for an id. -/
def pair (b : Bench U Z) (id : UInt64) : Bytes × Bytes :=
  (Schema.key id, Record.encode (b.schema.row id))

/-- What loading rows adds to a recorder. -/
def recorded (b : Bench U Z) (recorder : Recorder T) (ids : List UInt64) : Recorder T :=
  recorder.recordAll (ids.flatMap fun _ => b.schema.rowEvents)

/-- **Loading rows is inserting their pairs**, whatever the buffers held before. -/
theorem loadRows_eq (hfits : b.schema.Fits) (rows : RowStore) {row : Buffer}
    (hlimit : row.limit = Record.maxLength) (value : Bytes) (recorder : Recorder T)
    (ids : List UInt64) :
    b.loadRows rows row value recorder ids =
      Program.insertAll (ids.map b.pair) (.ok (b.recorded recorder ids)) := by
  induction ids generalizing rows row value recorder with
  | nil => rfl
  | cons id ids ih =>
    obtain ⟨filled, last, hfilled, hholds⟩ := hfits.fillRow_eq hlimit value id
    have hrest := ih rows hholds.limit_eq last (recorder.recordAll b.schema.rowEvents)
    have hrecorded : b.recorded recorder (id :: ids) =
        b.recorded (recorder.recordAll b.schema.rowEvents) ids := by
      rw [recorded, recorded, List.flatMap_cons, Recorder.recordAll_append]
    rw [loadRows, hfilled]
    dsimp only
    rw [RowStore.insert_of_holds hholds, List.map_cons, hrecorded]
    exact congrArg (Program.call _) (funext fun _ => hrest)

/-- **A bench that can be loaded**: names and values can be written and nothing else limits them,
    there is room for the buffers, and every loader gets the same number of ids. -/
structure Loadable (b : Bench U Z) : Prop where
  fits : b.schema.Fits
  limit_eq : b.codec.maxFieldLength = Record.maxLength
  room : b.codec.initialCapacity ≤ Room.maxBytes
  even : b.config.recordCount.toNat % loaders = 0

/-- How many ids a loader has. -/
def perLoader (b : Bench U Z) : Nat := b.config.recordCount.toNat / loaders

/-- What a loader has recorded in the end. -/
def recorder (T : Type) [TimeTally T] (b : Bench U Z) (number : Nat) : Recorder T :=
  b.recorded Recorder.empty (idsOf b.perLoader number)

/-- **A loader inserts the pairs of its ids.** -/
theorem Loadable.loader_eq (h : b.Loadable) (number : Nat) :
    b.loader number =
      Program.insertAll ((idsOf b.perLoader number).map b.pair) (.ok (b.recorder T number)) := by
  obtain ⟨row, hrow, hlimit⟩ := Buffer.withConfig_of_room h.room
  rw [h.limit_eq, Nat.min_self] at hlimit
  have hrows : RowStore.withConfig b.codec = .ok ⟨⟨row⟩, b.codec.projectionOrder, []⟩ := by
    rw [RowStore.withConfig, Merger.withConfig, hrow]
    rfl
  rw [loader, hrows, hrow]
  exact loadRows_eq h.fits _ hlimit [] Recorder.empty _

/-! ## 3. Ids -/

/-- The ids of all rows. -/
def ids (b : Bench U Z) : List UInt64 := (List.range b.config.recordCount.toNat).map Nat.toUInt64

/-- All loaders together have as many ids as there are rows. -/
theorem Loadable.loaders_mul (h : b.Loadable) :
    loaders * b.perLoader = b.config.recordCount.toNat :=
  Nat.mul_div_cancel' (Nat.dvd_of_mod_eq_zero h.even)

/-- **The shares of the loaders in a row are the ids from zero on.** -/
theorem flatMap_idsOf (per count : Nat) :
    (List.range count).flatMap (idsOf per) = (List.range (count * per)).map Nat.toUInt64 := by
  induction count with
  | zero => rw [Nat.zero_mul, List.range_zero, List.flatMap_nil, List.map_nil]
  | succ count ih =>
    rw [List.range_succ, List.flatMap_append, ih, List.flatMap_singleton, Nat.succ_mul,
      List.range_add, List.map_append, List.map_map]
    rfl

/-- What lies below a number of 64 bits is one. -/
theorem toNat_toUInt64 {bound : UInt64} {n : Nat} (h : n < bound.toNat) : n.toUInt64.toNat = n :=
  UInt64.toNat_ofNat_of_lt' (Nat.lt_trans h bound.toNat_lt)

theorem mem_ids {id : UInt64} : id ∈ b.ids ↔ id < b.config.recordCount := by
  rw [ids, List.mem_map, UInt64.lt_iff_toNat_lt]
  constructor
  · rintro ⟨n, hn, rfl⟩
    have hlt := List.mem_range.1 hn
    rw [toNat_toUInt64 hlt]
    exact hlt
  · exact fun hlt => ⟨id.toNat, List.mem_range.2 hlt, UInt64.ofNat_toNat⟩

theorem nodup_ids (b : Bench U Z) : b.ids.Nodup := by
  refine List.pairwise_map.2 (List.nodup_range.imp_of_mem fun {m n} hm hn hne heq => hne ?_)
  rw [← toNat_toUInt64 (List.mem_range.1 hm), ← toNat_toUInt64 (List.mem_range.1 hn), heq]

/-- **An id belongs to the loader that it lies in the share of.** -/
theorem Loadable.mem_idsOf (h : b.Loadable) {number : Nat} (hnumber : number < loaders)
    {id : UInt64} :
    id ∈ idsOf b.perLoader number ↔
      number * b.perLoader ≤ id.toNat ∧ id.toNat < (number + 1) * b.perLoader := by
  have hshare : (number + 1) * b.perLoader ≤ b.config.recordCount.toNat := by
    rw [← h.loaders_mul]
    exact Nat.mul_le_mul_right _ hnumber
  rw [Nat.succ_mul] at hshare ⊢
  rw [idsOf, List.mem_map]
  constructor
  · rintro ⟨i, hi, rfl⟩
    have hlt := List.mem_range.1 hi
    have hbelow : number * b.perLoader + i < b.config.recordCount.toNat := by omega
    rw [toNat_toUInt64 hbelow]
    omega
  · rintro ⟨hle, hlt⟩
    refine ⟨id.toNat - number * b.perLoader, List.mem_range.2 (by omega), ?_⟩
    rw [Nat.add_sub_cancel' hle]
    exact UInt64.ofNat_toNat

/-! ## 4. All loaders -/

/-- **Under the key of an id that was inserted stands its row**, however often it was inserted, and
    under the key of another id what stood there before. -/
theorem getElem?_insertMany_pair (m : MemoryStore) (ids : List UInt64) (id : UInt64) :
    (m.insertMany (ids.map b.pair))[Schema.key id]? =
      if id ∈ ids then some (Record.encode (b.schema.row id)) else m[Schema.key id]? := by
  induction ids generalizing m with
  | nil =>
    rw [List.map_nil, Std.ExtTreeMap.insertMany_nil]
    rfl
  | cons first ids ih =>
    rw [List.map_cons, pair, Std.ExtTreeMap.insertMany_cons, ih, Std.ExtTreeMap.getElem?_insert]
    by_cases hfirst : first = id
    · rw [if_pos (Schema.compare_key_eq.2 hfirst), hfirst, if_pos List.mem_cons_self, ite_self]
    · rw [if_neg (mt Schema.compare_key_eq.1 hfirst)]
      simp only [List.mem_cons, Ne.symm hfirst, false_or]

/-- Under the key of no such id nothing changes. -/
theorem getElem?_insertMany_pair_of_ne {ids : List UInt64} {key : Bytes}
    (h : ∀ id ∈ ids, key ≠ Schema.key id) (m : MemoryStore) :
    (m.insertMany (ids.map b.pair))[key]? = m[key]? := by
  have hconfined : (Program.insertAll (ids.map b.pair) ()).Confined
      (fun other => ∃ id ∈ ids, other = Schema.key id) (ids.map b.pair).length := by
    refine Program.confined_insertAll (fun pair hpair => ?_) ()
    obtain ⟨id, hid, rfl⟩ := List.mem_map.1 hpair
    exact ⟨id, hid, rfl⟩
  have hother := hconfined.run_other (fun ⟨id, hid, heq⟩ => h id hid heq) m
  rw [Program.run_insertAll] at hother
  exact hother

/-- The store that holds the rows of all ids. -/
def store (b : Bench U Z) : MemoryStore := (∅ : MemoryStore).insertMany (b.ids.map b.pair)

/-- **The store holds the rows of the ids and nothing else.** -/
theorem getElem?_store {key value : Bytes} :
    b.store[key]? = some value ↔
      ∃ id, id < b.config.recordCount ∧ key = Schema.key id ∧
        value = Record.encode (b.schema.row id) := by
  constructor
  · intro h
    by_cases hkey : ∃ id ∈ b.ids, key = Schema.key id
    · obtain ⟨id, hid, rfl⟩ := hkey
      rw [store, getElem?_insertMany_pair, if_pos hid] at h
      exact ⟨id, mem_ids.1 hid, rfl, (Option.some.inj h).symm⟩
    · have hother : ∀ id ∈ b.ids, key ≠ Schema.key id := fun id hid heq => hkey ⟨id, hid, heq⟩
      rw [store, getElem?_insertMany_pair_of_ne hother, Std.ExtTreeMap.getElem?_empty] at h
      cases h
  · rintro ⟨id, hid, rfl, rfl⟩
    rw [store, getElem?_insertMany_pair, if_pos (mem_ids.2 hid)]

/-- No id is missing and none stands for another. -/
theorem size_store (b : Bench U Z) : b.store.size = b.config.recordCount.toNat := by
  have hdistinct : (b.ids.map b.pair).Pairwise fun p q => ¬ compare p.1 q.1 = .eq :=
    List.pairwise_map.2 (b.nodup_ids.imp fun hne heq => hne (Schema.compare_key_eq.1 heq))
  rw [store, Std.ExtTreeMap.size_insertMany_list hdistinct
    (fun _ hkey => absurd hkey Std.ExtTreeMap.not_mem_empty), Std.ExtTreeMap.size_empty,
    Nat.zero_add, List.length_map, ids, List.length_map, List.length_range]

/-- Loaders that run one after the other insert what each of them inserts, and their recorders are
    summed. -/
theorem Loadable.runLoaders_eq (h : b.Loadable) (numbers : List Nat) (sum : Recorder T)
    (m : MemoryStore) :
    runLoaders (numbers.map b.loader) sum m =
      .ok ((numbers.map (b.recorder T)).foldl Recorder.add sum,
        m.insertMany ((numbers.flatMap (idsOf b.perLoader)).map b.pair)) := by
  induction numbers generalizing sum m with
  | nil =>
    simp only [List.flatMap_nil, List.map_nil, Std.ExtTreeMap.insertMany_nil]
    rfl
  | cons number numbers ih =>
    rw [List.map_cons, runLoaders, h.loader_eq, Program.run_insertAll]
    dsimp only
    rw [ih, List.flatMap_cons, List.map_append, Std.ExtTreeMap.insertMany_append]
    rfl

/-- The shares of all loaders are the ids of all rows. -/
theorem Loadable.flatMap_idsOf_loaders (h : b.Loadable) :
    (List.range loaders).flatMap (idsOf b.perLoader) = b.ids := by
  rw [flatMap_idsOf, h.loaders_mul, ids]

/-- The recorders of all loaders together. -/
def loadMetrics (T : Type) [TimeTally T] (b : Bench U Z) : Recorder T :=
  (List.ofFn fun i : Fin loaders => b.recorder T i).foldl Recorder.add Recorder.empty

theorem Loadable.load_eq (h : b.Loadable) :
    b.load (∅ : MemoryStore) = .ok (b.loadMetrics T, b.store) := by
  have hrun := h.runLoaders_eq (List.range loaders) (Recorder.empty : Recorder T) ∅
  have hrecorders : (List.range loaders).map (b.recorder T) =
      List.ofFn fun i : Fin loaders => b.recorder T i :=
    List.ext_getElem (by simp) fun i _ _ => by simp
  rw [h.flatMap_idsOf_loaders, hrecorders] at hrun
  exact (if_pos h.even).trans hrun

/-- Every id is in the share of a loader. -/
theorem Loadable.mem_ids_iff (h : b.Loadable) {id : UInt64} :
    id ∈ b.ids ↔ ∃ i : Fin loaders, id ∈ idsOf b.perLoader i := by
  rw [← h.flatMap_idsOf_loaders, List.mem_flatMap]
  constructor
  · rintro ⟨number, hnumber, hid⟩
    exact ⟨⟨number, List.mem_range.1 hnumber⟩, hid⟩
  · rintro ⟨i, hid⟩
    exact ⟨i, List.mem_range.2 i.isLt, hid⟩

/-! ## 5. Loaders that share a store -/

/-- The loaders, before the first turn. -/
def atStart (T : Type) [TimeTally T] (b : Bench U Z) :
    Shared (Fin loaders) (Program (Except Fault (Recorder T))) MemoryStore :=
  ⟨∅, fun i => b.loader i⟩

/-- The keys of one loader. -/
def keysOf (b : Bench U Z) (number : Fin loaders) (key : Bytes) : Prop :=
  ∃ id ∈ idsOf b.perLoader number, key = Schema.key id

/-- No two loaders share a key. -/
theorem Loadable.keysOf_disjoint (h : b.Loadable) {i j : Fin loaders} (hij : i ≠ j) {key : Bytes}
    (hi : b.keysOf i key) : ¬ b.keysOf j key := by
  rintro ⟨id', hid', heq'⟩
  obtain ⟨id, hid, heq⟩ := hi
  obtain rfl : id = id' := Schema.key_injective (heq.symm.trans heq')
  rw [h.mem_idsOf i.isLt] at hid
  rw [h.mem_idsOf j.isLt] at hid'
  -- neither share ends before the other begins
  have hle : (i : Nat) < j + 1 := Nat.lt_of_mul_lt_mul_right (Nat.lt_of_le_of_lt hid.1 hid'.2)
  have hge : (j : Nat) < i + 1 := Nat.lt_of_mul_lt_mul_right (Nat.lt_of_le_of_lt hid'.1 hid.2)
  exact hij (Fin.ext (by omega))

/-- **A loader makes one request for each of its ids.** -/
theorem Loadable.confined_loader (h : b.Loadable) (i : Fin loaders) :
    ((b.atStart T).parties i).Confined (b.keysOf i) b.perLoader := by
  have hpairs : ∀ pair ∈ (idsOf b.perLoader i).map b.pair, b.keysOf i pair.1 := by
    intro pair hpair
    obtain ⟨id, hid, rfl⟩ := List.mem_map.1 hpair
    exact ⟨id, hid, rfl⟩
  have hlength : ((idsOf b.perLoader i).map b.pair).length = b.perLoader := by
    rw [List.length_map, idsOf, List.length_map, List.length_range]
  have hconfined := Program.confined_insertAll hpairs
    (Except.ok (b.recorder T i) : Except Fault (Recorder T))
  rw [← h.loader_eq, hlength] at hconfined
  exact hconfined

/-- All rows are stored, and every loader has its recorder. -/
def atEnd (T : Type) [TimeTally T] (b : Bench U Z) :
    Shared (Fin loaders) (Program (Except Fault (Recorder T))) MemoryStore :=
  ⟨b.store, fun i => .done (.ok (b.recorder T i))⟩

/-- **The end is where the loaders are on their way to**: under its own keys every loader alone
    leaves what stands there at the end, and nobody has other keys. -/
theorem Loadable.onCourse_atEnd (h : b.Loadable) :
    Shared.OnCourse b.keysOf (fun _ => b.perLoader) (b.atStart T) (b.atEnd T) := by
  have hrun : ∀ i : Fin loaders, ((b.atStart T).parties i).run (b.atStart T).state =
      (.ok (b.recorder T i), (∅ : MemoryStore).insertMany ((idsOf b.perLoader i).map b.pair)) := by
    intro i
    show (b.loader i).run ∅ = _
    rw [h.loader_eq, Program.run_insertAll]
  constructor
  case confined => exact fun i => Program.confined_done _
  case result_eq =>
    intro i
    rw [hrun]
    rfl
  case own =>
    rintro i key ⟨id, hid, rfl⟩
    have hall : id ∈ b.ids := h.mem_ids_iff.2 ⟨i, hid⟩
    show b.store[Schema.key id]? = _
    rw [hrun, store, getElem?_insertMany_pair, getElem?_insertMany_pair, if_pos hid, if_pos hall]
  case other =>
    intro key hkey
    refine getElem?_insertMany_pair_of_ne (fun id hid heq => ?_) ∅
    obtain ⟨i, hi⟩ := h.mem_ids_iff.1 hid
    exact hkey i ⟨id, hi, heq⟩

/-- **In whatever order the loaders take their turns, they end with all rows stored.** -/
theorem Loadable.run_eq_atEnd (h : b.Loadable) {turns : List (Fin loaders)}
    (hdone : ∀ i, (((b.atStart T).run Program.tick turns).parties i).IsDone) :
    (b.atStart T).run Program.tick turns = b.atEnd T := by
  have hstart := Shared.onCourse_start (h.confined_loader (T := T))
  have hleft := hstart.run (fun i j hij key => h.keysOf_disjoint hij) Program.advances_tick turns
  exact hleft.eq_of_done (h.onCourse_atEnd (T := T)) hdone fun _ => trivial

/-! ## 6. What is recorded -/

theorem counter_recorder (b : Bench U Z) (number : Nat) (c : Counter) :
    (b.recorder T number).counter c =
      UInt64.ofNat (b.perLoader * Event.total c b.schema.rowEvents) := by
  rw [recorder, recorded, Recorder.counter_recordAll_empty, Event.total_flatMap, idsOf,
    List.length_map, List.length_range]

theorem counts_recorder (b : Bench U Z) (number : Nat) : (b.recorder T number).Counts := by
  refine Recorder.counts_empty.recordAll fun event hevent => ?_
  obtain ⟨id, -, hevent⟩ := List.mem_flatMap.1 hevent
  exact Schema.eq_count_of_mem_rowEvents hevent

/-- **Every row is counted once.** -/
theorem Loadable.counter_loadMetrics (h : b.Loadable) (c : Counter) :
    (b.loadMetrics T).counter c =
      b.config.recordCount * UInt64.ofNat (Event.total c b.schema.rowEvents) := by
  have hshown : ∀ r ∈ List.ofFn fun i : Fin loaders => b.recorder T i,
      r.counter c = UInt64.ofNat (b.perLoader * Event.total c b.schema.rowEvents) := by
    intro r hr
    obtain ⟨i, rfl⟩ := List.mem_ofFn.1 hr
    exact b.counter_recorder i c
  rw [loadMetrics, Recorder.counter_foldl_add hshown, Recorder.counter_empty, List.length_ofFn,
    ← Nat.mul_assoc, h.loaders_mul, UInt64.ofNat_mul, UInt64.ofNat_toNat, UInt64.zero_add]

/-- No size is filed and no time taken. -/
theorem counts_loadMetrics (b : Bench U Z) : (b.loadMetrics T).Counts := by
  refine Recorder.counts_empty.foldl_add fun r hr => ?_
  obtain ⟨i, rfl⟩ := List.mem_ofFn.1 hr
  exact b.counts_recorder i

/-! ## 7. From setting up to the end -/

variable [UniformDraws U] [ZipfDraws Z]

/-- **A configuration is set up** if all checks pass, and then the bench has what the checks
    gave. -/
theorem setUp_eq_ok {c : BenchConfig} :
    setUp c = .ok b ↔
      checkEngine c = .ok () ∧ Mix.isValid c.mix = true ∧
        Schema.create c.fieldStem (UInt64.toNat c.fieldCount) (UInt64.toNat c.fieldLength) =
          .ok b.schema ∧
        (codecConfig c).validate = .ok () ∧
        Sampler.create c.distribution 0 c.recordCount = .ok b.sampler ∧
        b.config = c ∧ b.codec = codecConfig c := by
  constructor
  · intro h
    obtain ⟨_, hengine, h⟩ := Answer.bind_eq_ok.1 h
    split at h
    case isTrue => cases h
    case isFalse hmix =>
      obtain ⟨schema, hschema, h⟩ := Answer.bind_eq_ok.1 h
      obtain ⟨_, hcodec, h⟩ := Answer.bind_eq_ok.1 h
      obtain ⟨sampler, hsampler, h⟩ := Answer.bind_eq_ok.1 h
      cases h
      exact ⟨hengine, by simpa using hmix, hschema, Answer.mapError_eq_ok.1 hcodec, hsampler, rfl,
        rfl⟩
  · obtain ⟨config, codec, schema, sampler⟩ := b
    rintro ⟨hengine, hmix, hschema, hcodec, hsampler, hconfig, hsettings⟩
    obtain rfl : config = c := hconfig
    obtain rfl : codec = codecConfig config := hsettings
    refine Answer.bind_eq_ok.2 ⟨(), hengine, ?_⟩
    rw [hmix]
    refine Answer.bind_eq_ok.2 ⟨schema, hschema, ?_⟩
    refine Answer.bind_eq_ok.2 ⟨(), Answer.mapError_eq_ok.2 hcodec, ?_⟩
    exact Answer.bind_eq_ok.2 ⟨sampler, hsampler, rfl⟩

/-- A bench that was set up can be loaded if its names and values can be written, there is room for
    a row, and the loaders can share the ids evenly. -/
theorem loadable_of_setUp {c : BenchConfig} (hsetUp : setUp c = .ok b) (hfits : b.schema.Fits)
    (hroom : (rowSize c).toNat ≤ Room.maxBytes) (heven : c.recordCount.toNat % loaders = 0) :
    b.Loadable := by
  obtain ⟨-, -, -, -, -, rfl, hcodec⟩ := setUp_eq_ok.1 hsetUp
  have hlimit : b.codec.maxFieldLength = Record.maxLength := by
    rw [hcodec]
    rfl
  have hcapacity : b.codec.initialCapacity ≤ Room.maxBytes := by
    rw [hcodec]
    exact hroom
  exact ⟨hfits, hlimit, hcapacity, heven⟩

end Bench

/-- **Loading loses and duplicates nothing.** A configuration was set up, names and values can be
    written, there is room for a row, and the loaders can share the ids evenly. Then, in whatever
    order the loaders take their turns on an empty store, they are done after as many turns as they
    have ids; and once they are all done,

    * the store has as many keys as there are rows, those of the ids from zero on, and under each
      of them the written form of its row, which is what filling leaves in any buffer without a
      limit of its own;
    * each loader has a recorder, and their sum is that of the loaders that run one after the other.
      It counts one clearing and all fields for each row, modulo 2^64, and nothing else: its
      histograms are empty and its timers have no samples. They are as at the beginning if nothing
      added to nothing is nothing. -/
theorem loading_loses_and_duplicates_nothing {U Z T : Type} [UniformDraws U] [ZipfDraws Z]
    [TimeTally T] [LawfulTimeTally T] {c : BenchConfig} {b : Bench U Z}
    (hsetUp : Bench.setUp c = .ok b) (hfits : b.schema.Fits)
    (hroom : (Bench.rowSize c).toNat ≤ Room.maxBytes)
    (heven : c.recordCount.toNat % Bench.loaders = 0) (turns : List (Fin Bench.loaders)) :
    let start : Shared (Fin Bench.loaders) (Program (Except Fault (Recorder T))) MemoryStore :=
      ⟨∅, fun i => b.loader i⟩
    let left := start.run Program.tick turns
    let fieldCount : UInt64 := c.fieldCount
    ((∀ i, c.recordCount.toNat / Bench.loaders ≤ turns.count i) →
      ∀ i, (left.parties i).IsDone) ∧
    ((∀ i, (left.parties i).IsDone) →
      left.state.size = c.recordCount.toNat ∧
      (∀ id₁ id₂, Schema.key id₁ = Schema.key id₂ → id₁ = id₂) ∧
      (∀ key value, left.state[key]? = some value ↔
        ∃ id, id < c.recordCount ∧ key = Schema.key id ∧
          value = Record.encode (b.schema.row id)) ∧
      (∀ (row : Buffer) (value : Bytes) (id : UInt64), row.limit = Record.maxLength →
        let filled := (b.schema.fillRow row value id).value
        filled.outcome = .ok (.ok ()) ∧ filled.row.bytes = Record.encode (b.schema.row id)) ∧
      ∃ recorders : Fin Bench.loaders → Recorder T,
        (∀ i, left.parties i = .done (.ok (recorders i))) ∧
        let sum := (List.ofFn recorders).foldl Recorder.add Recorder.empty
        b.load (∅ : MemoryStore) = .ok (sum, left.state) ∧
        (∀ counter, sum.counter counter =
          match counter with
          | .recordAppend => c.recordCount * fieldCount
          | .recordClear => c.recordCount
          | _ => 0) ∧
        (∀ histogram, sum.histogram histogram = ∅) ∧
        (∀ timer, (sum.samples timer).toNat = 0) ∧
        (TimeTally.add TimeTally.empty TimeTally.empty = (TimeTally.empty : T) →
          ∀ timer, sum.timer timer = TimeTally.empty)) := by
  intro start left fieldCount
  have hloadable := Bench.loadable_of_setUp hsetUp hfits hroom heven
  obtain ⟨-, -, hschema, -, -, rfl, -⟩ := Bench.setUp_eq_ok.1 hsetUp
  have hnames : b.schema.names.length = UInt64.toNat b.config.fieldCount := by
    rw [(Schema.create_eq_ok.1 hschema).2.2, List.length_map, List.length_range]
  refine ⟨fun hturns i => Shared.isDone_run_tick hloadable.confined_loader (hturns i),
    fun hdone => ?_⟩
  have hleft : left = b.atEnd T := hloadable.run_eq_atEnd hdone
  rw [hleft]
  refine ⟨b.size_store, fun _ _ => Schema.key_injective, fun _ _ => Bench.getElem?_store, ?_,
    fun i => b.recorder T i, fun _ => rfl, ?_⟩
  · intro row value id hlimit
    obtain ⟨filled, last, hfilled, hholds⟩ := hfits.fillRow_eq hlimit value id
    rw [hfilled]
    exact ⟨rfl, hholds.written.eq_encode⟩
  · intro sum
    have hcounts := b.counts_loadMetrics (T := T)
    refine ⟨hloadable.load_eq, fun counter => ?_, hcounts.histogram_eq, hcounts.samples_eq,
      fun hempty timer => (hcounts.timer_untouched timer).eq_empty hempty⟩
    show (b.loadMetrics T).counter counter = _
    rw [hloadable.counter_loadMetrics, Schema.total_rowEvents, hnames]
    cases counter with
    | recordAppend => rw [UInt64.ofNat_toNat]
    | recordClear => exact UInt64.mul_one _
    | _ => exact UInt64.mul_zero

/-- Two rows for each loader, with two fields each. The last loader comes first, and then the first
    loader once more before the others. -/
theorem loading_sixteen_pairs_of_rows :
    let c : BenchConfig :=
      { name := "small", threads := [1], time := 1, repetitions := 1, recordCount := 32,
        distribution := .uniform, mix := ⟨50, 50, 0, 0, 0, 0⟩, memoryMegabytes := 1,
        filePath := "rows", fieldCount := 2, fieldLength := 3, fieldStem := "field",
        readAllFields := true, writeAllFields := true, scanCount := 10, engine := .memory }
    let b : Bench UniformSampler ZipfSampler :=
      ⟨c, Bench.codecConfig c, ⟨["field0", "field1"], 3⟩, .uniform ⟨0, 32, 4294967296⟩⟩
    let turns := (List.finRange Bench.loaders).reverse ++ List.finRange Bench.loaders
    let start :
        Shared (Fin Bench.loaders) (Program (Except Fault (Recorder Latency))) MemoryStore :=
      ⟨∅, fun i => b.loader i⟩
    let left := start.run Program.tick turns
    let last : List Field :=
      [⟨Utf8.ofText "field0", Utf8.ofText "ngq"⟩, ⟨Utf8.ofText "field1", Utf8.ofText "vip"⟩]
    left.state.size = 32 ∧
      left.state[Utf8.ofText "user07938660269479274665"]? = some (Record.encode last) ∧
      ∃ sum : Recorder Latency, b.load (∅ : MemoryStore) = .ok (sum, left.state) ∧
        sum.counter .recordAppend = 64 ∧ sum.counter .recordClear = 32 ∧
        sum.counter .merge = 0 := by
  intro c b turns start left last
  have hnames : ((List.range 2).map fun i => "field" ++ toString i) = b.schema.names := by
    decide +kernel
  have hschema : Schema.create "field" 2 3 = .ok b.schema :=
    Schema.create_eq_ok.2 ⟨by decide, by decide, by rw [hnames]⟩
  have hsampler : Sampler.create .uniform 0 32 = .ok b.sampler := by rfl
  have hsetUp : Bench.setUp c = .ok b :=
    Bench.setUp_eq_ok.2 ⟨rfl, by decide, hschema, by rfl, hsampler, rfl, rfl⟩
  have hfits : b.schema.Fits := ⟨by decide, by decide +kernel, by decide⟩
  have hroom : (Bench.rowSize c).toNat ≤ Room.maxBytes := by decide
  have heven : c.recordCount.toNat % Bench.loaders = 0 := by decide
  have hturns : ∀ i, c.recordCount.toNat / Bench.loaders ≤ turns.count i := by decide
  have hid : 31 < c.recordCount := by decide
  have hkey : Utf8.ofText "user07938660269479274665" = Schema.key 31 := by decide +kernel
  have hrow : b.schema.row 31 = last := by decide +kernel
  have hcount : c.recordCount.toNat = 32 := by decide
  have hrows : c.recordCount = 32 := by decide
  have hfields : c.recordCount * (show UInt64 from c.fieldCount) = 64 := by decide
  -- what was set up need not be looked at any more
  clear_value b c turns last
  obtain ⟨hdone, hloaded⟩ :=
    loading_loses_and_duplicates_nothing (T := Latency) hsetUp hfits hroom heven turns
  obtain ⟨hsize, -, hvalue, -, recorders, -, hload, hcounter, -⟩ := hloaded (hdone hturns)
  have hlast := (hvalue (Schema.key 31) _).2 ⟨31, hid, rfl, rfl⟩
  rw [hrow, ← hkey] at hlast
  exact ⟨hsize.trans hcount, hlast, _, hload, (hcounter .recordAppend).trans hfields,
    (hcounter .recordClear).trans hrows, hcounter .merge⟩

end FieldRecords
