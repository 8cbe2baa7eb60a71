import FieldRecords.Proofs.Overlays
import FieldRecords.Proofs.ProjectionOrders
import FieldRecords.Proofs.Reuse

/-!
# What of a selection counts

In stored order a selection is asked one question only, whether a name is wanted. So **selections
that mean the same names project alike** (`project_source_congr`), step by step and with the same
events, whichever kind they are, in whatever order they list the names and however often.

In asked order the list of the names counts and nothing else (`project_request_congr`), and of a
list only where each name comes first (`Record.requested_eraseDups`). The fields come in the order
of the list (`Record.names_requested_of_distinct`), so a list that is put in another order gives the
same fields in this other order.

`selections_count_as_sets_and_lists` says all of it of records.
-/

namespace FieldRecords

/-! ## 1. Selections that cannot be told apart -/

section

variable {a b : Selection}

/-- Selections that mean the same names are both empty or both not. -/
theorem Selection.isEmpty_congr (h : ∀ name, a.Denotes name ↔ b.Denotes name) :
    a.isEmpty = b.isEmpty := by
  rw [Bool.eq_iff_iff, isEmpty_iff, isEmpty_iff]
  simp only [h]

/-- **In stored order a selection counts as a set of names.** -/
theorem project_source_congr (h : ∀ name, a.Denotes name ↔ b.Denotes name) (v : View)
    (out : Buffer) : project v a .source out = project v b .source out := by
  have hwants : a.wants = b.wants := by
    funext name
    rw [Bool.eq_iff_iff, Selection.wants_iff, Selection.wants_iff, h]
  have hkeep : keepWanted a = keepWanted b := by
    funext out growth kept e
    rw [keepWanted, keepWanted, hwants]
  unfold project projectBySource
  rw [hkeep, Selection.isEmpty_congr h]

/-- **In asked order a selection counts as the list of its names.** -/
theorem project_request_congr (h : a.names = b.names) (v : View) (out : Buffer) :
    project v a .request out = project v b .request out := by
  unfold project projectByRequest
  rw [a.isEmpty_eq, b.isEmpty_eq, h]

/-- Selections that keep the same fields of a view leave the same. -/
theorem project_same_of_kept {v : View} {order : ProjectionOrder} (hempty : a.isEmpty = b.isEmpty)
    (hkept : Record.kept v.contents.fields a order = Record.kept v.contents.fields b order)
    (out : Buffer) : (project v a order out).value.Same (project v b order out).value := by
  have hrow : Row.project ⟨out.limit, []⟩ v.contents a order =
      Row.project ⟨out.limit, []⟩ v.contents b order := by
    unfold Row.project
    rw [hempty]
    cases order with
    | source => simp only [hkept]
    | request => simp only [hkept]
  have ha := holds_project (r := ⟨out.limit, []⟩) rfl v a order
  rw [hrow] at ha
  exact ha.same (holds_project rfl v b order)

end

/-! ## 2. Lists of names -/

namespace Record

/-- Distinct names stay as they are when repeated ones are dropped. -/
theorem eraseDups_of_nodup {names : List Bytes} (h : names.Nodup) : names.eraseDups = names := by
  induction names with
  | nil => rfl
  | cons name names ih =>
    obtain ⟨hname, hnames⟩ := List.nodup_cons.1 h
    have hall : (names.filter fun other => !other == name) = names := by
      refine List.filter_eq_self.2 fun other hother => ?_
      have hne : other ≠ name := fun heq => hname (heq ▸ hother)
      simpa using hne
    rw [List.eraseDups_cons, hall, ih hnames]

/-- **A name counts where it is asked for first.** -/
theorem requested_eraseDups (fields : List Field) (names : List Bytes) :
    requested fields names.eraseDups = requested fields names := by
  rw [requested, eraseDups_of_nodup (nodup_eraseDups names), requested]

/-- A name has a value if the list has it. -/
theorem isSome_lookup?_eq (fields : List Field) (name : Bytes) :
    (lookup? fields name).isSome = decide (Has fields name) := by
  rw [isSome_lookup?, Bool.eq_iff_iff, any_name_eq_true, decide_eq_true_iff]

/-- **Fields that are asked for by distinct names come in the order of the names.** -/
theorem names_requested_of_distinct (fields : List Field) {names : List Bytes} (h : names.Nodup) :
    (requested fields names).map Field.name = names.filter fun name => Has fields name := by
  rw [names_requested, eraseDups_of_nodup h]
  simp only [isSome_lookup?_eq]

/-- **Names in another order ask for the same fields.** -/
theorem requested_perm (fields : List Field) {names permuted : List Bytes}
    (h : permuted.Perm names) : (requested fields permuted).Perm (requested fields names) := by
  refine perm_of_lookup? (nodup_names_requested fields permuted)
    (nodup_names_requested fields names) fun name => ?_
  rw [requested, requested, lookup?_filterMap, lookup?_filterMap]
  simp only [List.mem_eraseDups, h.mem_iff]

end Record

/-! ## 3. Records -/

/-- **A selection counts as a set in stored order, and as a list in asked order.**

    * In stored order, selections of any kinds that mean the same names project every view into
      every output in the same way.
    * In asked order, a list leaves the same as the list without the names it repeats, and an
      ordered set is the list of its names in byte order.
    * Of a record, a list of distinct names and the list in another order both leave the fields of
      the names that the record has, the same ones, each in the order of its list. -/
theorem selections_count_as_sets_and_lists :
    (∀ a b : Selection, (∀ name, a.Denotes name ↔ b.Denotes name) → ∀ (v : View) (out : Buffer),
      project v a .source out = project v b .source out) ∧
    (∀ (names : List Bytes) (v : View) (out : Buffer),
      (project v (.list names) .request out).value.Same
        (project v (.list names.eraseDups) .request out).value) ∧
    (∀ (names : Std.TreeSet Bytes compare) (ascending : List Bytes),
      ascending.Pairwise (· < ·) → (∀ name, name ∈ ascending ↔ name ∈ names) →
        ∀ (v : View) (out : Buffer),
          project v (.sorted names) .request out = project v (.list ascending) .request out) ∧
    ∀ (v : View) (fields : List Field) (names permuted : List Bytes) (out other : Buffer),
      Record.Written v.bytes fields → names.Nodup → permuted.Perm names →
      out.limit = Record.maxLength → other.limit = Record.maxLength →
        let asked := (project v (.list names) .request out).value
        let moved := (project v (.list permuted) .request other).value
        asked.outcome = .ok () ∧ moved.outcome = .ok () ∧
          ∃ kept keptMoved, asked.buffer.view.toFields.answer = .ok kept ∧
            moved.buffer.view.toFields.answer = .ok keptMoved ∧ keptMoved.Perm kept ∧
            (kept.map Field.name = names.filter fun name => Record.Has fields name) ∧
            keptMoved.map Field.name = permuted.filter fun name => Record.Has fields name := by
  refine ⟨fun a b h v out => project_source_congr h v out, fun names v out => ?_,
    fun names ascending hordered hmem v out => ?_, ?_⟩
  · have hempty : (Selection.list names).isEmpty = (Selection.list names.eraseDups).isEmpty :=
      Selection.isEmpty_congr fun name => List.mem_eraseDups.symm
    have hkept : Record.kept v.contents.fields (.list names) .request =
        Record.kept v.contents.fields (.list names.eraseDups) .request :=
      (Record.requested_eraseDups v.contents.fields names).symm
    exact project_same_of_kept hempty hkept out
  · have hlisted : (Selection.sorted names).names = (Selection.list ascending).names :=
      Selection.names_sorted hordered hmem
    exact project_request_congr hlisted v out
  · intro v fields names permuted out other hv hnames hperm hout hother asked moved
    have hpermuted : permuted.Nodup := hperm.nodup_iff.2 hnames
    have hasked := holds_project_of_written hv (.list names) .request hout
    have hmoved := holds_project_of_written hv (.list permuted) .request hother
    exact ⟨hasked.outcome, hmoved.outcome, _, _,
      View.answer_toFields_of_written hasked.buffer.written,
      View.answer_toFields_of_written hmoved.buffer.written, Record.requested_perm fields hperm,
      Record.names_requested_of_distinct fields hnames,
      Record.names_requested_of_distinct fields hpermuted⟩

/-- A record that repeats a name and has one that is no text. A list that repeats a name and a set
    of texts mean the same two names; an ordered set is the list in byte order; and a list of three
    names, put in another order, gives the two fields it finds in this other order. The outputs hold
    no records. -/
theorem selections_of_the_same_names :
    let fields : List Field := [⟨[98], [1]⟩, ⟨[255], [2, 2]⟩, ⟨[97], []⟩, ⟨[98], [3]⟩]
    let v : View := ⟨Record.encode fields⟩
    let list : Selection := .list [[98], [97], [98]]
    let texts : Selection := .texts (.ofList ["a", "b"])
    let ascending : List Bytes := [[97], [98]]
    let sorted : Std.TreeSet Bytes compare := .ofList ascending.reverse
    let names : List Bytes := [[97], [99], [98]]
    let permuted : List Bytes := [[98], [97], [99]]
    let out : Buffer := ⟨[7], Record.maxLength, 1⟩
    let moved := (project v (.list permuted) .request out).value
    (∀ name, list.Denotes name ↔ texts.Denotes name) ∧
      project v list .source out = project v texts .source out ∧
      (project v list .request out).value.Same (project v (.list [[98], [97]]) .request out).value ∧
      project v (.sorted sorted) .request out = project v (.list ascending) .request out ∧
      names.Nodup ∧ permuted.Perm names ∧
      ∃ kept, moved.buffer.view.toFields.answer = .ok kept ∧
        kept.map Field.name = [[98], [97]] := by
  intro fields v list texts ascending sorted names permuted out moved
  have hsame : ∀ name, list.Denotes name ↔ texts.Denotes name := by
    intro name
    have ha : Utf8.ofText "a" = [97] := (Utf8.ofText_eq "a").trans rfl
    have hb : Utf8.ofText "b" = [98] := (Utf8.ofText_eq "b").trans rfl
    have hlist : list.Denotes name ↔ name = [97] ∨ name = [98] := by
      show name ∈ ([[98], [97], [98]] : List Bytes) ↔ _
      rw [List.mem_cons, List.mem_cons, List.mem_singleton, or_left_comm, or_self]
    have htexts : texts.Denotes name ↔
        ∃ text, (text = "a" ∨ text = "b") ∧ Utf8.ofText text = name := by
      show (∃ text ∈ Std.HashSet.ofList ["a", "b"], Utf8.ofText text = name) ↔ _
      simp [Std.HashSet.mem_ofList]
    rw [hlist, htexts]
    constructor
    · rintro (rfl | rfl)
      · exact ⟨"a", .inl rfl, ha⟩
      · exact ⟨"b", .inr rfl, hb⟩
    · rintro ⟨_, rfl | rfl, rfl⟩
      · exact .inl ha
      · exact .inr hb
  have hsorted : ∀ name, name ∈ ascending ↔ name ∈ sorted := by
    intro name
    rw [Std.TreeSet.mem_ofList, List.contains_iff_mem, List.mem_reverse]
  have hfields : Record.Written v.bytes fields := Record.written_encode (by decide)
  have hnames : names.Nodup := by decide
  have hperm : permuted.Perm names := by decide
  obtain ⟨hset, hlist, hordered, hmoved⟩ := selections_count_as_sets_and_lists
  obtain ⟨-, -, kept, keptMoved, -, hkeptMoved, -, -, horder⟩ :=
    hmoved v fields names permuted out out hfields hnames hperm rfl rfl
  exact ⟨hsame, hset list texts hsame v out, hlist [[98], [97], [98]] v out,
    hordered sorted ascending (by decide) hsorted v out, hnames, hperm, keptMoved, hkeptMoved,
    horder⟩

end FieldRecords
