import Mathlib.Data.List.Basic
import FieldRecords.Proofs.SelectedNames
import FieldRecords.Proofs.Tables

/-!
# Projections of projections

Projecting what a projection left is projecting once, with the names that are in both selections, in
the order of the second one (`Record.kept_kept`). What was kept in asked order has lost the stored
order and the fields whose names are repeated, so after it this is only said of asked order.

A selection that has every name keeps the record as it is (`Record.kept_eq_self`): in stored order
any such selection, and in asked order one that lists the names as they are stored
(`Selection.ListsAll`). So **whoever reads a row with every name listed reads the whole row**
(`RowStore.read_all_listed`).

`projections_compose` says all of it of records.
-/

namespace FieldRecords

/-- **Every field of the record is asked for, where it stands.** In stored order it is enough that
    the selection means every name. In asked order the names are listed as they are stored, so no
    two fields have the same name; names that the record does not have may stand between them, and
    a name may be listed again behind its first place. -/
def Selection.ListsAll (wanted : Selection) (fields : List Field) : ProjectionOrder → Prop
  | .source => ∀ f ∈ fields, wanted.Denotes f.name
  | .request =>
    (wanted.names.eraseDups.filter fun name => Record.Has fields name) = fields.map Field.name

/-! ## 1. Lists -/

namespace Record

/-- Names without a field may be dropped from a request. -/
theorem requested_filter_has (fields : List Field) (names : List Bytes) :
    requested fields (names.filter fun name => Has fields name) = requested fields names := by
  rw [requested, eraseDups_filter, List.filterMap_filter, requested]
  refine congrArg (fun pick => names.eraseDups.filterMap pick) (funext fun name => ?_)
  rw [← isSome_lookup?_eq]
  cases lookup? fields name <;> rfl

/-- Fields of distinct names, asked for by just their names, are all kept. -/
theorem requested_names {fields : List Field} (hdistinct : (fields.map Field.name).Nodup) :
    requested fields (fields.map Field.name) = fields := by
  rw [requested, eraseDups_of_nodup hdistinct, List.filterMap_map]
  have hpick : ∀ f ∈ fields, ((lookup? fields f.name).map (Field.mk f.name)) = some f :=
    fun f hf => by rw [lookup?_of_mem hdistinct hf]; rfl
  exact (List.filterMap_congr hpick).trans List.filterMap_some

/-- **What is listed completely is kept as it is.** -/
theorem kept_eq_self {fields : List Field} {wanted : Selection} {order : ProjectionOrder}
    (h : wanted.ListsAll fields order) : kept fields wanted order = fields := by
  cases order with
  | source => exact List.filter_eq_self.2 fun f hf => Selection.wants_iff.2 (h f hf)
  | request =>
    have hnames : (wanted.names.eraseDups.filter fun name => Has fields name) =
        fields.map Field.name := h
    have hdistinct : (fields.map Field.name).Nodup := by
      rw [← hnames]
      exact (nodup_eraseDups wanted.names).sublist List.filter_sublist
    rw [kept, ← requested_eraseDups, ← requested_filter_has, hnames, requested_names hdistinct]

/-- What is asked of kept fields is asked of all fields, by the names that were wanted. -/
theorem requested_kept (fields : List Field) (first : Selection) (order : ProjectionOrder)
    (names : List Bytes) :
    requested (kept fields first order) names =
      requested fields (names.filter fun name => first.Denotes name) := by
  rw [requested, requested, eraseDups_filter, List.filterMap_filter]
  refine congrArg (fun pick => names.eraseDups.filterMap pick) (funext fun name => ?_)
  rw [lookup?_kept]
  by_cases hname : first.Denotes name
  · rw [if_pos hname, if_pos (decide_eq_true hname)]
  · rw [if_neg hname, if_neg (by simpa using hname)]
    rfl

/-- **Keeping from what was kept is keeping once**, by the names that both selections have. -/
theorem kept_kept (fields : List Field) {first second both : Selection}
    {order₁ order₂ : ProjectionOrder} (horder : order₁ = .source ∨ order₁ = order₂)
    (hboth : both.names = second.names.filter fun name => first.Denotes name) :
    kept (kept fields first order₁) second order₂ = kept fields both order₂ := by
  cases order₂ with
  | source =>
    obtain rfl : order₁ = .source := horder.elim id id
    rw [kept, kept, kept, List.filter_filter]
    refine List.filter_congr fun f _ => ?_
    have hmem : both.Denotes f.name ↔ second.Denotes f.name ∧ first.Denotes f.name := by
      rw [← Selection.mem_names, hboth, List.mem_filter, Selection.mem_names, decide_eq_true_iff]
    rw [Bool.eq_iff_iff, Bool.and_eq_true, Selection.wants_iff, Selection.wants_iff,
      Selection.wants_iff, hmem]
  | request =>
    rw [kept, requested_kept, kept, hboth]

end Record

/-! ## 2. Records -/

section

variable {v : View} {fields : List Field} {out : Buffer}

/-- A projection of what a projection left. -/
theorem holds_project_project (hv : Record.Written v.bytes fields) {first second both : Selection}
    {order₁ order₂ : ProjectionOrder} (horder : order₁ = .source ∨ order₁ = order₂)
    (hboth : both.names = second.names.filter fun name => first.Denotes name) {again : Buffer}
    (hout : out.limit = Record.maxLength) (hagain : again.limit = Record.maxLength) :
    (project (project v first order₁ out).value.buffer.view second order₂ again).value.Holds
      (⟨Record.maxLength, Record.kept fields both order₂⟩, .ok ()) := by
  have honce : Record.Written (project v first order₁ out).value.buffer.view.bytes
      (Record.kept fields first order₁) :=
    (holds_project_of_written hv first order₁ hout).buffer.written
  have htwice := holds_project_of_written honce second order₂ hagain
  rwa [Record.kept_kept fields horder hboth] at htwice

end

/-! ## 3. Rows that are read -/

/-- **Whoever lists every name reads the whole row**, as whoever gives no names does. -/
theorem RowStore.read_all_listed {σ : Type} [KeyValueStore σ] (rows : RowStore) {key : Bytes}
    {s : σ} {stored : Bytes} {row : List Field} (hrow : Record.Written stored row)
    (hstored : (KeyValueStore.serve (.read key) s).1 = some stored) {wanted : Selection}
    (hlisted : wanted.ListsAll row rows.order) {result other : Buffer}
    (hresult : result.limit = Record.maxLength) (hother : other.limit = Record.maxLength) :
    let listed := (rows.read key (some wanted) result).run s
    let whole := (rows.read key none other).run s
    (listed.1.value.reply fun b => [b.bytes]) = ⟨.ok, [], [stored]⟩ ∧
      (whole.1.value.reply fun b => [b.bytes]) = ⟨.ok, [], [stored]⟩ ∧
      listed.1.value.client = whole.1.value.client ∧ listed.2 = whole.2 := by
  intro listed whole
  have hselect : Table.select rows.order (some wanted) row = row := Record.kept_eq_self hlisted
  have hfits := hrow.fits
  obtain rfl := hrow.eq_encode
  obtain ⟨hreplyListed, hclientListed, hleftListed⟩ :=
    rows.run_read_stored hstored hfits (some wanted) hresult
  obtain ⟨hreplyWhole, hclientWhole, hleftWhole⟩ := rows.run_read_stored hstored hfits none hother
  rw [hselect] at hreplyListed
  exact ⟨hreplyListed, hreplyWhole, hclientListed.trans hclientWhole.symm,
    hleftListed.trans hleftWhole.symm⟩

/-- **Projections compose**, of every well-formed record and into buffers without a limit on fields,
    whatever these held:

    * projecting again with the same selection and order changes nothing;
    * projecting what a projection left is projecting once with the names of the second selection
      that are in the first, if the first projection was in stored order or both orders are the
      same;
    * if every name is listed, the record is left as it is, and a row that is stored as these bytes
      is read as if no names were given. -/
theorem projections_compose (v : View) (fields : List Field) (hv : Record.Written v.bytes fields)
    (out again other : Buffer) (hout : out.limit = Record.maxLength)
    (hagain : again.limit = Record.maxLength) (hother : other.limit = Record.maxLength) :
    (∀ (wanted : Selection) (order : ProjectionOrder),
      let once := (project v wanted order out).value
      once.outcome = .ok () ∧ (project once.buffer.view wanted order again).value.Same once) ∧
    (∀ (first second both : Selection) (order₁ order₂ : ProjectionOrder),
      order₁ = .source ∨ order₁ = order₂ →
      (both.names = second.names.filter fun name => first.Denotes name) →
      let once := (project v first order₁ out).value
      let twice := (project once.buffer.view second order₂ again).value
      once.outcome = .ok () ∧ twice.outcome = .ok () ∧
        twice.Same (project v both order₂ other).value) ∧
    ∀ (wanted : Selection) (order : ProjectionOrder), wanted.ListsAll fields order →
      let whole := (project v wanted order out).value
      (whole.outcome = .ok () ∧ whole.buffer.bytes = v.bytes) ∧
        ∀ {σ : Type} [KeyValueStore σ] (rows : RowStore) (key : Bytes) (s : σ),
          rows.order = order → (KeyValueStore.serve (.read key) s).1 = some v.bytes →
          let listed := (rows.read key (some wanted) again).run s
          let unlisted := (rows.read key none other).run s
          (listed.1.value.reply fun b => [b.bytes]) = ⟨.ok, [], [v.bytes]⟩ ∧
            (unlisted.1.value.reply fun b => [b.bytes]) = ⟨.ok, [], [v.bytes]⟩ ∧
            listed.1.value.client = unlisted.1.value.client ∧ listed.2 = unlisted.2 := by
  refine ⟨fun wanted order => ?_, fun first second both order₁ order₂ horder hboth => ?_,
    fun wanted order hlisted => ⟨?_, ?_⟩⟩
  · have hnames : wanted.names = wanted.names.filter fun name => wanted.Denotes name :=
      (List.filter_eq_self.2 fun name hname => decide_eq_true (Selection.mem_names.1 hname)).symm
    have honce := holds_project_of_written hv wanted order hout
    exact ⟨honce.outcome, (holds_project_project hv (.inr rfl) hnames hout hagain).same honce⟩
  · have honce := holds_project_of_written hv first order₁ hout
    have htwice := holds_project_project hv horder hboth hout hagain
    have hdirect := holds_project_of_written hv both order₂ hother
    exact ⟨honce.outcome, htwice.outcome, htwice.same hdirect⟩
  · have hwhole := holds_project_of_written hv wanted order hout
    rw [Record.kept_eq_self hlisted] at hwhole
    exact ⟨hwhole.outcome, hwhole.buffer.written.eq_encode.trans hv.eq_encode.symm⟩
  · rintro σ _ rows key s rfl hstored
    exact rows.read_all_listed hv hstored hlisted hagain hother

/-- A record that repeats a name, and a request for three names of a projection in stored order: the
    request is answered from the record by the two names of it that were wanted first. Asked for all
    names of the record, a row store gives the stored bytes. A record of distinct names is left as
    it is by its names in stored order, here with a name that it does not have and one that is
    listed again. The outputs hold no records. -/
theorem requests_of_a_projection :
    let fields : List Field := [⟨[97], [1]⟩, ⟨[98], []⟩, ⟨[97], [2, 2]⟩, ⟨[99], [3]⟩]
    let v : View := ⟨Record.encode fields⟩
    let first : Selection := .list [[98], [97], [100]]
    let second : Selection := .list [[99], [98], [100]]
    let both : Selection := .list [[98], [100]]
    let all : Selection := .list [[99], [98], [97]]
    let distinct : List Field := [⟨[97], [1]⟩, ⟨[98], [2, 2]⟩]
    let asked : Selection := .list [[100], [97], [98], [97]]
    let out : Buffer := ⟨[7], Record.maxLength, 1⟩
    let once := (project v first .source out).value
    let rows : RowStore := ⟨⟨out⟩, .source, []⟩
    let m : MemoryStore := Std.ExtTreeMap.insert ∅ [5] v.bytes
    (project once.buffer.view second .request out).value.Same (project v both .request out).value ∧
      (project once.buffer.view first .source out).value.Same once ∧
      all.ListsAll fields .source ∧
      (((rows.read [5] (some all) out).run m).1.value.reply fun b => [b.bytes]) =
        ⟨.ok, [], [v.bytes]⟩ ∧
      asked.ListsAll distinct .request ∧
      (project ⟨Record.encode distinct⟩ asked .request out).value.buffer.bytes =
        Record.encode distinct := by
  intro fields v first second both all distinct asked out once rows m
  have hv : Record.Written v.bytes fields := Record.written_encode (by decide)
  have hdistinct : Record.Written (Record.encode distinct) distinct :=
    Record.written_encode (by decide)
  have hall : all.ListsAll fields .source := by
    show ∀ f ∈ fields, f.name ∈ ([[99], [98], [97]] : List Bytes)
    decide
  have hasked : asked.ListsAll distinct .request := by
    show _ = distinct.map Field.name
    decide
  have hboth : both.names = second.names.filter fun name => first.Denotes name := by decide
  have hstored : (KeyValueStore.serve (.read [5]) m).1 = some v.bytes :=
    Std.ExtTreeMap.getElem?_insert_self
  obtain ⟨hagain, hcompose, hwhole⟩ := projections_compose v fields hv out out out rfl rfl rfl
  obtain ⟨-, -, hlisted⟩ := projections_compose ⟨Record.encode distinct⟩ distinct hdistinct
    out out out rfl rfl rfl
  exact ⟨(hcompose first second both .source .request (.inl rfl) hboth).2.2,
    (hagain first .source).2, hall, ((hwhole all .source hall).2 rows [5] m rfl hstored).1, hasked,
    (hlisted asked .request hasked).1.2⟩

end FieldRecords
