import FieldRecords.Proofs.RoundTrip
import FieldRecords.Proofs.Updates

/-!
# Merging under a limit on fields

A buffer may admit only fields whose name and value are no longer than its limit. A merge into it
looks at the value of every field of the update, and at the name only of a field that is to go to
the end; nothing that the base holds is looked at.

Which way a field goes depends on the names that are there when it comes, and these change from
field to field. But a name that was granted on the way is short enough, so it makes no difference
whether it is looked at again: **every field of the update can be judged by the base alone**
(`Row.excess?`, `Row.excess?_put`), and the first one that is too long decides the merge
(`Row.layAll_eq`, `merging_under_limit`).
-/

namespace FieldRecords

namespace Row

variable {r s : Row} {f : Field} {update : List Field}

/-! ## 1. What is too long -/

/-- A part of the field is too long to be laid over the row: the value, or the name if it is new to
    the row. -/
def TooLong (r : Row) (f : Field) : Prop :=
  r.limit < f.value.length ∨ r.limit < f.name.length ∧ ¬ Record.Has r.fields f.name

instance (r : Row) (f : Field) : Decidable (r.TooLong f) := inferInstanceAs (Decidable (_ ∨ _))

/-- How long that part is. The name is looked at first. -/
def excess? (r : Row) (f : Field) : Option Nat :=
  if r.limit < f.name.length ∧ ¬ Record.Has r.fields f.name then some f.name.length
  else if r.limit < f.value.length then some f.value.length
  else none

theorem excess?_eq_none : r.excess? f = none ↔ ¬ r.TooLong f := by
  unfold excess? TooLong
  split
  · rename_i hname
    simp [hname]
  · rename_i hname
    rw [or_iff_left hname, ite_eq_right_iff]
    exact ⟨fun h hvalue => (nomatch h hvalue), fun h hvalue => absurd hvalue h⟩

theorem excess?_of_tooLong (h : r.TooLong f) :
    r.excess? f = some
      (if r.limit < f.name.length ∧ ¬ Record.Has r.fields f.name then f.name.length
        else f.value.length) := by
  unfold excess?
  split
  · rfl
  · rename_i hname
    rw [if_pos (h.resolve_right hname)]

/-- **A field that was granted makes no difference to what is too long**: if it brought a new name,
    this is short enough. -/
theorem excess?_put (h : r.excess? f = none) (g : Field) :
    excess? { r with fields := Record.put r.fields f } g = r.excess? g := by
  have hname : f.name = g.name → (r.limit < g.name.length → Record.Has r.fields g.name) := by
    intro he hlong
    rw [← he] at hlong ⊢
    by_contra hnot
    exact excess?_eq_none.1 h (.inr ⟨hlong, hnot⟩)
  have hsame : (r.limit < g.name.length ∧ ¬ Record.Has (Record.put r.fields f) g.name) ↔
      r.limit < g.name.length ∧ ¬ Record.Has r.fields g.name := by
    rw [Record.has_put]
    constructor
    · rintro ⟨hlong, hnot⟩
      exact ⟨hlong, fun hhas => hnot (.inr hhas)⟩
    · rintro ⟨hlong, hnot⟩
      exact ⟨hlong, fun hhas => hhas.elim (fun he => hnot (hname he hlong)) hnot⟩
  simp only [excess?, hsame]

/-! ## 2. Laying fields over a row -/

/-- **A field is refused just if a part of it is too long**, as long as there is room for it. -/
theorem lay_eq (hroom : (Record.put r.fields f).length ≤ Record.maxLength) :
    r.lay f =
      match r.excess? f with
      | some length => .error (.fieldTooLarge length r.limit)
      | none => .ok { r with fields := Record.put r.fields f } := by
  by_cases hhas : Record.Has r.fields f.name
  · have hname : ¬ (r.limit < f.name.length ∧ ¬ Record.Has r.fields f.name) := fun h => h.2 hhas
    rw [lay, Record.any_name_eq_true.2 hhas, if_pos rfl, excess?, if_neg hname]
    by_cases hvalue : r.limit < f.value.length
    · rw [if_pos hvalue, if_pos hvalue]
    · rw [if_neg hvalue, if_neg hvalue, become_granted]
  · have habsent := Record.not_has.1 hhas
    rw [Record.put_of_absent habsent] at hroom ⊢
    rw [List.length_append, List.length_singleton] at hroom
    rw [lay_of_absent habsent, append, excess?]
    by_cases hname : r.limit < f.name.length
    · rw [if_pos hname, if_pos ⟨hname, hhas⟩]
    · have hshort : ¬ (r.limit < f.name.length ∧ ¬ Record.Has r.fields f.name) :=
        fun h => hname h.1
      rw [if_neg hname, if_neg hshort]
      by_cases hvalue : r.limit < f.value.length
      · rw [if_pos hvalue, if_pos hvalue]
      · rw [if_neg hvalue, if_neg hvalue, if_neg (Nat.not_le.2 hroom), become_granted]

/-- **The first field that is too long for the row decides the update.** -/
theorem layAll_eq (hfit : (Record.overlay r.fields update).length ≤ Record.maxLength) :
    (r.layAll update).2 =
      match update.findSome? r.excess? with
      | some length => .error (.fieldTooLarge length r.limit)
      | none => .ok () := by
  unfold layAll
  induction update generalizing r with
  | nil => rfl
  | cons f update ih =>
    rw [Record.overlay_cons] at hfit
    have hlay := lay_eq (r := r) (f := f)
      (Nat.le_trans (Record.length_le_overlay _ update) hfit)
    rw [List.findSome?_cons]
    cases hexcess : r.excess? f with
    | some length =>
      rw [hexcess] at hlay
      rw [Answer.foldUntilRefused_cons_error hlay]
    | none =>
      rw [hexcess] at hlay
      rw [Answer.foldUntilRefused_cons_ok hlay, ih hfit, funext (excess?_put hexcess)]

/-- An update is refused just if one of its fields is too long for the row. -/
theorem layAll_refused_iff (hfit : (Record.overlay r.fields update).length ≤ Record.maxLength) :
    (∃ error, (r.layAll update).2 = .error error) ↔ ∃ f ∈ update, r.TooLong f := by
  rw [layAll_eq hfit]
  cases hfound : update.findSome? r.excess? with
  | some length =>
    obtain ⟨f, hf, hexcess⟩ := List.exists_of_findSome?_eq_some hfound
    have hlong : r.TooLong f := by
      by_contra hnot
      rw [excess?_eq_none.2 hnot] at hexcess
      cases hexcess
    exact ⟨fun _ => ⟨f, hf, hlong⟩, fun _ => ⟨_, rfl⟩⟩
  | none =>
    constructor
    · rintro ⟨error, herror⟩
      cases herror
    · rintro ⟨f, hf, hlong⟩
      have hexcess := List.findSome?_eq_none_iff.1 hfound f hf
      exact absurd hlong (excess?_eq_none.1 hexcess)

/-- An update is refused for the first of its fields that is too long for the row. -/
theorem layAll_of_first {before after : List Field}
    (hfit : (Record.overlay r.fields (before ++ f :: after)).length ≤ Record.maxLength)
    (hbefore : ∀ g ∈ before, ¬ r.TooLong g) (hlong : r.TooLong f) :
    (r.layAll (before ++ f :: after)).2 =
      .error (.fieldTooLarge
        (if r.limit < f.name.length ∧ ¬ Record.Has r.fields f.name then f.name.length
          else f.value.length) r.limit) := by
  have hnone : before.findSome? r.excess? = none :=
    List.findSome?_eq_none_iff.2 fun g hg => excess?_eq_none.2 (hbefore g hg)
  rw [layAll_eq hfit, List.findSome?_append, hnone, Option.none_or, List.findSome?_cons,
    excess?_of_tooLong hlong]

/-! ## 3. What a row holds under its limit -/

/-- Every name and every value in the row is short enough for its limit. -/
def Short (r : Row) : Prop :=
  ∀ f ∈ r.fields, f.name.length ≤ r.limit ∧ f.value.length ≤ r.limit

/-- A row that is short stays so when a field is granted: the name was there, or was looked at. -/
theorem Short.lay (h : r.Short) (hlay : r.lay f = .ok s) : s.Short := by
  have hvalue := value_le_of_lay hlay
  have hname : f.name.length ≤ r.limit := by
    by_cases hhas : Record.Has r.fields f.name
    · obtain ⟨g, hg, he⟩ := hhas
      exact he ▸ (h g hg).1
    · rw [lay_of_absent (Record.not_has.1 hhas)] at hlay
      exact (append_eq_ok.1 hlay).1
  rw [lay_granted hlay]
  intro g hg
  rcases Record.mem_put hg with rfl | hg
  · exact ⟨hname, hvalue⟩
  · exact h g hg

/-- A row that is short stays so under an update, also if the update is refused on the way. -/
theorem Short.layAll (h : r.Short) (update : List Field) : (r.layAll update).1.Short := by
  unfold Row.layAll
  induction update generalizing r with
  | nil => exact h
  | cons f update ih =>
    cases hlay : r.lay f with
    | ok s =>
      rw [Answer.foldUntilRefused_cons_ok hlay]
      exact ih (h.lay hlay)
    | error error =>
      rw [Answer.foldUntilRefused_cons_error hlay]
      exact h

end Row

/-! ## 4. Merges -/

/-- **Which merges are refused under a limit, and for what.** A merge into a buffer is refused just
    if a field of the update is too long for the base: its value is, or its name is and the base
    does not have it. The first such field is reported with the limit and the length of its name, if
    that is what is too long, or else of its value. What is too long in the base never refuses a
    merge, and if nothing is, then nothing is too long in the result either. -/
theorem merging_under_limit {base update : View} {fields changes : List Field}
    (hbase : Record.Written base.bytes fields) (hupdate : Record.Written update.bytes changes)
    (hfit : (Record.overlay fields changes).length ≤ Record.maxLength) (out : Buffer) :
    let row : Row := ⟨out.limit, fields⟩
    let edited := (mergeInto base update out).value
    ((∃ error, edited.outcome = .error error) ↔ ∃ f ∈ changes, row.TooLong f) ∧
    (∀ before f after, changes = before ++ f :: after →
      (∀ g ∈ before, ¬ row.TooLong g) → row.TooLong f →
        edited.outcome = .error (.fieldTooLarge
          (if out.limit < f.name.length ∧ ¬ Record.Has fields f.name then f.name.length
            else f.value.length) out.limit)) ∧
    ((∀ f ∈ changes, f.name.length ≤ out.limit ∧ f.value.length ≤ out.limit) →
      edited.outcome = .ok ()) ∧
    (row.Short → edited.outcome = .ok () →
      ∃ merged, edited.buffer.view.toFields.answer = .ok merged ∧
        Row.Short ⟨out.limit, merged⟩) := by
  intro row edited
  have houtcome : edited.outcome = (row.layAll changes).2 := outcome_mergeInto hbase hupdate out
  refine ⟨?_, fun before f after hchanges hbefore hlong => ?_, fun hshort => ?_,
    fun hrow hgranted => ?_⟩
  · rw [houtcome]
    exact Row.layAll_refused_iff hfit
  · subst hchanges
    exact houtcome.trans (Row.layAll_of_first hfit hbefore hlong)
  · exact houtcome.trans (Row.layAll_of_fit hshort hfit)
  · have hmerged := (holds_mergeInto_granted hbase hupdate hgranted).written
    have hlaid := hrow.layAll changes
    rw [Row.layAll_granted (houtcome.symm.trans hgranted)] at hlaid
    exact ⟨_, View.answer_toFields_of_written hmerged, hlaid⟩

/-- The base holds a name and a value that are too long, and that refuses nothing. A new name that
    is too long is reported before the value; a name that the base has is not looked at, so there
    the value is. -/
theorem long_names_refused_when_new :
    let base : View := ⟨Record.encode [⟨[97, 97, 97], [1, 1, 1]⟩, ⟨[98], [2]⟩]⟩
    let short : List Field := [⟨[98], [3, 3]⟩, ⟨[99], []⟩]
    let newName : List Field := [⟨[97, 97, 97], [5]⟩, ⟨[99, 99, 99], [4, 4, 4, 4]⟩]
    let oldName : List Field := [⟨[99], [6]⟩, ⟨[97, 97, 97], [4, 4, 4, 4]⟩]
    let outcome (changes : List Field) : Except CodecError Unit :=
      (mergeInto base ⟨Record.encode changes⟩ ⟨[7], 2, 1⟩).value.outcome
    outcome short = .ok () ∧ outcome newName = .error (.fieldTooLarge 3 2) ∧
      outcome oldName = .error (.fieldTooLarge 4 2) := by
  intro base short newName oldName outcome
  have hbase : Record.Written base.bytes [⟨[97, 97, 97], [1, 1, 1]⟩, ⟨[98], [2]⟩] :=
    Record.written_encode (by decide)
  have hshort : Record.Written (View.mk (Record.encode short)).bytes short :=
    Record.written_encode (by decide)
  have hnew : Record.Written (View.mk (Record.encode newName)).bytes newName :=
    Record.written_encode (by decide)
  have hold : Record.Written (View.mk (Record.encode oldName)).bytes oldName :=
    Record.written_encode (by decide)
  obtain ⟨-, -, hgranted, -⟩ := merging_under_limit hbase hshort (by decide) ⟨[7], 2, 1⟩
  obtain ⟨-, hname, -⟩ := merging_under_limit hbase hnew (by decide) ⟨[7], 2, 1⟩
  obtain ⟨-, hvalue, -⟩ := merging_under_limit hbase hold (by decide) ⟨[7], 2, 1⟩
  exact ⟨hgranted (by decide), hname [_] _ [] rfl (by decide) (by decide),
    hvalue [_] _ [] rfl (by decide) (by decide)⟩

end FieldRecords
