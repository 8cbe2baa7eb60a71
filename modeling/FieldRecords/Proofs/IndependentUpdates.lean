import FieldRecords.Proofs.MergeLaws

/-!
# Updates that share no name

Two updates that share no name do not get in each other's way: a field that one of them changes is
not touched by the other, and a field that one of them brings is new to the other as well. They can
meet in one place only, at the end of the row, where both put what is new.

* Over a row in two parts, an update falls into two parts (`Record.overlay_append_row`): what the
  front has names for stays in front, and all the rest goes behind it.
* So one update after another that shares no name with it changes fields of the row, and then come
  the new fields of the first and the new fields of the second
  (`Record.overlay_overlay_of_apart`). Fields are changed in either order alike
  (`Record.overlay_comm_of_has`).

Hence **the order of two such updates decides nothing but the order of the new fields**
(`independent_updates_commute`).
-/

namespace FieldRecords

namespace Record

/-! ## 1. Rows in two parts -/

/-- No name is in both updates. -/
def Apart (first second : List Field) : Prop := ∀ f ∈ first, ∀ g ∈ second, f.name ≠ g.name

instance (first second : List Field) : Decidable (Apart first second) :=
  inferInstanceAs (Decidable (∀ f ∈ first, ∀ g ∈ second, f.name ≠ g.name))

theorem Apart.symm {first second : List Field} (h : Apart first second) : Apart second first :=
  fun g hg f hf => Ne.symm (h f hf g hg)

/-- Parts of updates that share no name share none. -/
theorem Apart.filter {first second : List Field} (h : Apart first second) (p q : Field → Bool) :
    Apart (first.filter p) (second.filter q) :=
  fun f hf g hg => h f (List.mem_filter.1 hf).1 g (List.mem_filter.1 hg).1

/-- The fields of an update that a row has names for. -/
def known (row update : List Field) : List Field := update.filter fun f => Has row f.name

/-- The fields of an update that a row has no names for. -/
def unknown (row update : List Field) : List Field := update.filter fun f => ¬ Has row f.name

theorem has_of_mem_known {row update : List Field} {f : Field} (h : f ∈ known row update) :
    Has row f.name :=
  of_decide_eq_true (List.mem_filter.1 h).2

/-- What a row has names for depends on its names alone. -/
theorem known_congr {row other : List Field} (h : ∀ name, Has row name ↔ Has other name)
    (update : List Field) :
    known row update = known other update ∧ unknown row update = unknown other update := by
  simp only [known, unknown, h, and_self]

/-- A field that the front of a row has a name for is put into the front. -/
theorem put_append_of_has {front : List Field} {f : Field} (h : Has front f.name)
    (back : List Field) : put (front ++ back) f = put front f ++ back := by
  induction front with
  | nil => exact absurd h (not_has.2 fun _ hf => absurd hf List.not_mem_nil)
  | cons g front ih =>
    rw [List.cons_append]
    by_cases hname : g.name = f.name
    · rw [put, if_pos hname, put, if_pos hname]
      rfl
    · rw [put, if_neg hname, put, if_neg hname, ih ((has_cons.1 h).resolve_left hname)]
      rfl

/-- Any other field is put into the back. -/
theorem put_append_of_absent {front : List Field} {f : Field} (h : ¬ Has front f.name)
    (back : List Field) : put (front ++ back) f = front ++ put back f := by
  induction front with
  | nil => rfl
  | cons g front ih =>
    obtain ⟨hname, hfront⟩ := not_or.1 (mt has_cons.2 h)
    rw [List.cons_append, put, if_neg hname, ih hfront]
    rfl

/-- **An update of a row in two parts falls into two parts**: what the front has names for is laid
    over the front, and the rest over the back. -/
theorem overlay_append_row (front back update : List Field) :
    overlay (front ++ back) update =
      overlay front (known front update) ++ overlay back (unknown front update) := by
  induction update generalizing front back with
  | nil => rfl
  | cons f update ih =>
    rw [overlay_cons]
    by_cases hhas : Has front f.name
    · have hknown : known front (f :: update) = f :: known front update :=
        List.filter_cons_of_pos (decide_eq_true hhas)
      have hunknown : unknown front (f :: update) = unknown front update :=
        List.filter_cons_of_neg (by simpa using hhas)
      have hsame : ∀ name, Has (put front f) name ↔ Has front name := fun name => by
        rw [has_put, or_iff_right_of_imp fun hname => hname ▸ hhas]
      obtain ⟨hknownPut, hunknownPut⟩ := known_congr hsame update
      rw [put_append_of_has hhas, ih, hknownPut, hunknownPut, hknown, hunknown, overlay_cons]
    · have hknown : known front (f :: update) = known front update :=
        List.filter_cons_of_neg (by simpa using hhas)
      have hunknown : unknown front (f :: update) = f :: unknown front update :=
        List.filter_cons_of_pos (decide_eq_true hhas)
      rw [put_append_of_absent hhas, ih, hknown, hunknown, overlay_cons]

/-! ## 2. One update and another -/

/-- **An update of fields that are there can come before or after another one** that shares no name
    with it. -/
theorem overlay_comm_of_has {row first second : List Field} (hapart : Apart first second)
    (h : ∀ g ∈ second, Has row g.name) :
    overlay (overlay row first) second = overlay (overlay row second) first := by
  induction second generalizing row with
  | nil => rfl
  | cons g second ih =>
    have hg : Has row g.name := h g List.mem_cons_self
    have habsent : ∀ f ∈ first, f.name ≠ g.name := fun f hf => hapart f hf g List.mem_cons_self
    have hrest : Apart first second := fun f hf k hk => hapart f hf k (List.mem_cons_of_mem _ hk)
    have hput : ∀ k ∈ second, Has (put row g) k.name :=
      fun k hk => has_put.2 (.inr (h k (List.mem_cons_of_mem _ hk)))
    rw [overlay_cons, overlay_cons, put_overlay_of_absent hg habsent, ih hrest hput]

/-- An update whose names are all new to a row goes behind it. -/
theorem overlay_of_absent {row update : List Field} (h : ∀ f ∈ update, ¬ Has row f.name) :
    overlay row update = row ++ overlay [] update := by
  have hknown : known row update = [] :=
    List.filter_eq_nil_iff.2 fun f hf => by simpa using h f hf
  have hunknown : unknown row update = update :=
    List.filter_eq_self.2 fun f hf => decide_eq_true (h f hf)
  have hparts := overlay_append_row row [] update
  rwa [List.append_nil, hknown, hunknown, overlay_nil] at hparts

/-- **One update after another that shares no name with it**: first the row with all changes, then
    what the first one brings, then what the second one brings. -/
theorem overlay_overlay_of_apart (row : List Field) {first second : List Field}
    (hapart : Apart first second) :
    overlay (overlay row first) second =
      overlay (overlay row (known row first)) (known row second) ++
        (overlay [] (unknown row first) ++ overlay [] (unknown row second)) := by
  have hsame : ∀ name, Has (overlay row (known row first)) name ↔ Has row name := fun name => by
    rw [has_overlay, or_iff_right_of_imp]
    rintro ⟨f, hf, rfl⟩
    exact has_of_mem_known hf
  have hnew : ∀ g ∈ unknown row second, ¬ Has (overlay [] (unknown row first)) g.name := by
    intro g hg hhas
    rcases has_overlay.1 hhas with ⟨f, hf, hname⟩ | ⟨f, hf, -⟩
    · exact hapart.filter _ _ f hf g hg hname
    · exact absurd hf List.not_mem_nil
  have hfirst := overlay_append_row row [] first
  rw [List.append_nil] at hfirst
  obtain ⟨hknown, hunknown⟩ := known_congr hsame second
  rw [hfirst, overlay_append_row, hknown, hunknown, overlay_of_absent hnew]

/-- **Updates that share no name leave the same fields in either order.** -/
theorem overlay_overlay_perm (row : List Field) {first second : List Field}
    (hapart : Apart first second) :
    (overlay (overlay row first) second).Perm (overlay (overlay row second) first) := by
  have hchanged : overlay (overlay row (known row first)) (known row second) =
      overlay (overlay row (known row second)) (known row first) :=
    overlay_comm_of_has (hapart.filter _ _) fun _ hg => has_of_mem_known hg
  rw [overlay_overlay_of_apart row hapart, overlay_overlay_of_apart row hapart.symm, hchanged]
  exact List.perm_append_comm.append_left _

/-- An update without the name gives it no value. -/
theorem lookup?_reverse_of_absent {update : List Field} {name : Bytes} (h : ¬ Has update name) :
    lookup? update.reverse name = none := by
  rw [lookup?, Option.map_eq_none_iff, List.find?_eq_none]
  intro f hf
  rw [beq_iff_eq]
  exact not_has.1 h f (List.mem_reverse.1 hf)

/-- **Updates that share no name give every name the same value in either order.** -/
theorem lookup?_overlay_comm (row : List Field) {first second : List Field}
    (hapart : Apart first second) (name : Bytes) :
    lookup? (overlay (overlay row first) second) name =
      lookup? (overlay (overlay row second) first) name := by
  rw [lookup?_overlay, lookup?_overlay, lookup?_overlay, lookup?_overlay]
  by_cases hfirst : Has first name
  · have hsecond : ¬ Has second name := by
      rintro ⟨g, hg, rfl⟩
      obtain ⟨f, hf, hname⟩ := hfirst
      exact hapart f hf g hg hname
    rw [lookup?_reverse_of_absent hsecond]
    rfl
  · rw [lookup?_reverse_of_absent hfirst]
    rfl

end Record

/-! ## 3. Records -/

section

variable {base first second : View} {row u₁ u₂ : List Field}

/-- **Two merges, one after the other, are granted unless too many fields would be left.** -/
theorem answer_merge_merge (hbase : Record.Written base.bytes row)
    (hfirst : Record.Written first.bytes u₁) (hsecond : Record.Written second.bytes u₂) :
    let inTurn := (merge base first >>= fun merged => merge merged.view second).answer
    let laid := Record.overlay (Record.overlay row u₁) u₂
    (laid.length ≤ Record.maxLength → ∃ b, inTurn = .ok b ∧ Record.Written b.bytes laid) ∧
      (Record.maxLength < laid.length → inTurn = .error .tooManyFields) := by
  intro inTurn laid
  have hagree : Agree (fun b fields => Record.Written b.bytes fields) inTurn _ :=
    agree_merge_merge hbase hfirst hsecond
  rw [Record.merged, Record.overlay_append] at hagree
  clear_value inTurn
  constructor
  · intro hfit
    rw [if_neg (Nat.not_lt.2 hfit)] at hagree
    exact hagree.of_granted
  · intro hlong
    rw [if_pos hlong] at hagree
    cases hagree
    rfl

/-- **Updates that share no name commute.** Merged into a row in either order, they are granted or
    refused alike, and refused only if too many fields would be left. The two results have the same
    fields, each as often, and the same number of bytes, and every name has the same value in both.
    If the row has all names of one of the updates, they are the same byte for byte. Names may be
    repeated in the row and in each update. -/
theorem independent_updates_commute (hbase : Record.Written base.bytes row)
    (hfirst : Record.Written first.bytes u₁) (hsecond : Record.Written second.bytes u₂)
    (hapart : Record.Apart u₁ u₂) :
    let inTurn (one other : View) : Checked Buffer := do
      let merged ← merge base one
      merge merged.view other
    let laid := Record.overlay (Record.overlay row u₁) u₂
    (laid.length ≤ Record.maxLength →
      ∃ b₁ b₂, (inTurn first second).answer = .ok b₁ ∧ (inTurn second first).answer = .ok b₂ ∧
        b₁.view.Rearranges b₂.view ∧
        (∀ name, (b₁.view.get? name).answer = (b₂.view.get? name).answer) ∧
        ((∀ f ∈ u₁, Record.Has row f.name) ∨ (∀ f ∈ u₂, Record.Has row f.name) →
          b₁.bytes = b₂.bytes)) ∧
    (Record.maxLength < laid.length →
      (inTurn first second).answer = .error .tooManyFields ∧
        (inTurn second first).answer = .error .tooManyFields) := by
  intro inTurn laid
  have hperm := Record.overlay_overlay_perm row hapart
  obtain ⟨hgranted₁, hrefused₁⟩ := answer_merge_merge hbase hfirst hsecond
  obtain ⟨hgranted₂, hrefused₂⟩ := answer_merge_merge hbase hsecond hfirst
  rw [← hperm.length_eq] at hgranted₂ hrefused₂
  refine ⟨fun hfit => ?_, fun hlong => ⟨hrefused₁ hlong, hrefused₂ hlong⟩⟩
  obtain ⟨b₁, hb₁, hwritten₁⟩ := hgranted₁ hfit
  obtain ⟨b₂, hb₂, hwritten₂⟩ := hgranted₂ hfit
  refine ⟨b₁, b₂, hb₁, hb₂, View.rearranges_of_written hwritten₁ hwritten₂ hperm, ?_, ?_⟩
  · intro name
    rw [View.answer_get?_of_written hwritten₁, View.answer_get?_of_written hwritten₂,
      Record.lookup?_overlay_comm row hapart]
  · rintro (hnames | hnames)
    · rw [hwritten₁.eq_encode, hwritten₂.eq_encode,
        Record.overlay_comm_of_has hapart.symm hnames]
    · rw [hwritten₁.eq_encode, hwritten₂.eq_encode, Record.overlay_comm_of_has hapart hnames]

end

/-- A row that repeats a name, one update that changes this name twice and brings another, and one
    that changes the second field and brings two. The new fields come in the order of the merges,
    and everything else is the same. -/
theorem updates_of_other_names_commute :
    let base : View := ⟨Record.encode [⟨[97], [1]⟩, ⟨[98], [2, 2]⟩, ⟨[97], [3]⟩]⟩
    let u₁ : List Field := [⟨[97], [4, 4]⟩, ⟨[99], [5]⟩, ⟨[97], []⟩]
    let u₂ : List Field := [⟨[100], [6]⟩, ⟨[98], []⟩, ⟨[101], [7]⟩, ⟨[100], [8, 8]⟩]
    let first : View := ⟨Record.encode u₁⟩
    let second : View := ⟨Record.encode u₂⟩
    Record.Apart u₁ u₂ ∧ ∃ b₁ b₂,
      (merge base first >>= fun merged => merge merged.view second).answer = .ok b₁ ∧
      (merge base second >>= fun merged => merge merged.view first).answer = .ok b₂ ∧
      b₁.view.Rearranges b₂.view ∧ (b₁.view.get? [99]).answer = (b₂.view.get? [99]).answer := by
  intro base u₁ u₂ first second
  have hbase : Record.Written base.bytes [⟨[97], [1]⟩, ⟨[98], [2, 2]⟩, ⟨[97], [3]⟩] :=
    Record.written_encode (by decide)
  have hfirst : Record.Written first.bytes u₁ := Record.written_encode (by decide)
  have hsecond : Record.Written second.bytes u₂ := Record.written_encode (by decide)
  have hapart : Record.Apart u₁ u₂ := by decide
  obtain ⟨hgranted, -⟩ := independent_updates_commute hbase hfirst hsecond hapart
  obtain ⟨b₁, b₂, hb₁, hb₂, hsame, hget, -⟩ := hgranted (by decide)
  exact ⟨hapart, b₁, b₂, hb₁, hb₂, hsame, hget [99]⟩

end FieldRecords
