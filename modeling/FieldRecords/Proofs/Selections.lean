import FieldRecords.Record.Selection

/-!
# What a selection means

A selection means a set of names (`Selection.Denotes`), whichever kind it is; a text means its
bytes. Its two answers tell the same: **a name is wanted if it is meant** (`Selection.wants_iff`),
also for a set of texts, where the name is read as a text before it is looked up, and **the names
that are listed are those that are meant** (`Selection.mem_names`).

A list may repeat a name and says in which order the names come; an ordered set lists each name
once, in byte order (`Selection.names_sorted`).
-/

namespace FieldRecords

/-- **The selection means this name.** -/
def Selection.Denotes : Selection → Bytes → Prop
  | list names, name => name ∈ names
  | set names, name => name ∈ names
  | texts names, name => ∃ text ∈ names, Utf8.ofText text = name
  | sorted names, name => name ∈ names

/-- Byte strings are compared byte by byte from the front. -/
theorem Bytes.compare_eq_lt_iff {a b : Bytes} : compare a b = .lt ↔ a < b := by
  induction a generalizing b with
  | nil => cases b <;> simp
  | cons x a ih =>
    cases b with
    | nil => simp
    | cons y b =>
      rw [List.compare_cons_cons, Ordering.then_eq_lt, ih, List.cons_lt_cons_iff]
      simp [Std.compare_eq_lt]

/-- Byte strings in ascending order are distinct. -/
theorem Bytes.nodup_of_ascending {listed : List Bytes} (h : listed.Pairwise (· < ·)) :
    listed.Nodup := by
  refine List.Pairwise.imp (fun {a b} hlt => ?_) h
  rintro rfl
  exact List.lt_irrefl a hlt

namespace Selection

variable {wanted : Selection} {name : Bytes}

/-- **A name is wanted if it is meant.** -/
theorem wants_iff : wanted.wants name = true ↔ wanted.Denotes name := by
  cases wanted with
  | list names => simp [wants, Denotes]
  | set names => exact Std.HashSet.contains_iff_mem
  | texts names =>
    simp only [wants, Denotes]
    constructor
    · intro h
      split at h
      · rename_i text htext
        exact ⟨text, Std.HashSet.contains_iff_mem.1 h, Utf8.toText?_eq_some_iff.1 htext⟩
      · cases h
    · rintro ⟨text, hmem, hbytes⟩
      rw [Utf8.toText?_eq_some_iff.2 hbytes]
      exact Std.HashSet.contains_iff_mem.2 hmem
  | sorted names => exact Std.TreeSet.contains_iff_mem

instance : Decidable (wanted.Denotes name) := decidable_of_iff _ wants_iff

/-- **The names that are listed are those that are meant.** -/
theorem mem_names : name ∈ wanted.names ↔ wanted.Denotes name := by
  cases wanted with
  | list names => exact Iff.rfl
  | set names => exact Std.HashSet.mem_toList
  | texts names =>
    show name ∈ names.toList.map Utf8.ofText ↔ ∃ text ∈ names, Utf8.ofText text = name
    simp only [List.mem_map, Std.HashSet.mem_toList]
  | sorted names => exact Std.TreeSet.mem_toList

/-- Nothing is wanted if no name is listed. -/
theorem isEmpty_eq (wanted : Selection) : wanted.isEmpty = wanted.names.isEmpty := by
  cases wanted with
  | list names => rfl
  | set names => exact Std.HashSet.isEmpty_toList.symm
  | texts names => exact (List.isEmpty_map.trans Std.HashSet.isEmpty_toList).symm
  | sorted names => exact Std.TreeSet.isEmpty_toList.symm

/-- Nothing is wanted if no name is meant. -/
theorem isEmpty_iff : wanted.isEmpty = true ↔ ∀ name, ¬ wanted.Denotes name := by
  rw [isEmpty_eq, List.isEmpty_iff, List.eq_nil_iff_forall_not_mem]
  simp only [mem_names]

/-- **An ordered set lists its names in byte order, each once**, and there is only one such list. -/
theorem names_sorted {names : Std.TreeSet Bytes compare} {ascending : List Bytes}
    (hordered : ascending.Pairwise (· < ·)) (hmem : ∀ name, name ∈ ascending ↔ name ∈ names) :
    (sorted names).names = ascending := by
  have hlisted : names.toList.Pairwise (· < ·) :=
    Std.TreeSet.ordered_toList.imp Bytes.compare_eq_lt_iff.1
  have hperm : names.toList.Perm ascending := by
    rw [List.perm_ext_iff_of_nodup (Bytes.nodup_of_ascending hlisted)
      (Bytes.nodup_of_ascending hordered)]
    intro name
    rw [Std.TreeSet.mem_toList, hmem]
  refine hperm.eq_of_pairwise (fun _ _ _ _ hab hba => ?_) hlisted hordered
  exact absurd hba (List.lt_asymm hab)

end Selection

end FieldRecords
