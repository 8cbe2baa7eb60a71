import FieldRecords.Proofs.Rejections

/-!
# How much of a walk is still to come

Before every step a walk says how many items it has still to yield at most (`Walk.sizeHint`). What
it does yield is known from its contents: the fields, and behind them the fault, if there is one
(`Walk.upcoming`). Stepping goes through this list from the front (`Walk.items_eq_take`), and **the
hint has room for all of it** (`Walk.length_upcoming_le`): one item for each declared entry, and one
for a fault behind them.

A trail is a walk under way, with what it has yielded since it was started. Two accounts of it are
kept up by every step (`Trail.Accounted`): the entries met and those to come are as many as were
declared, and the walk is over exactly if a step was met that ends it. Walks over one view share
nothing but the view: however many are started, and in whichever order they are stepped, each goes
the way of a walk alone (`View.trails_follow`).
-/

namespace FieldRecords

/-! ## 1. What is still to come -/

namespace Walk

/-- The item that a step yields: a field, or the fault. -/
def Step.item? : Step → Option (Except CodecError Field)
  | .entry e => some (.ok e.field)
  | .fault error => some (.error error)
  | .done => none

/-- The walk ends with this step. -/
def Step.ends : Step → Bool
  | .entry _ => false
  | .fault _ | .done => true

/-- The items that so many steps yield. -/
def items (n : Nat) (w : Walk) : List (Except CodecError Field) :=
  (w.yields n).filterMap Step.item?

/-- **What is still to come**: the fields of the contents, and behind them the fault. -/
def upcoming (w : Walk) : List (Except CodecError Field) :=
  w.contents.fields.map .ok ++ w.contents.fault.toList.map .error

/-- Nothing is to come on a walk that is over. -/
theorem upcoming_of_finished {w : Walk} (h : w.finished = true) : w.upcoming = [] := by
  rw [upcoming, contents, if_pos h]
  rfl

/-- **A step takes its item off what is to come.** -/
theorem upcoming_next (w : Walk) :
    w.upcoming = w.next.value.1.item?.toList ++ w.next.value.2.upcoming := by
  have hover := fun h => upcoming_of_finished (finished_next (w := w) h)
  obtain ⟨hc, w', hnext⟩ | ⟨error, hc, hnext⟩ | ⟨e, w', -, -, hc, -, hnext⟩ := w.next_cases
  · rw [hover (by simp [hnext]), upcoming, hc, hnext]
    rfl
  · rw [hover (by simp [hnext, fail]), upcoming, hc, hnext]
    rfl
  · rw [hnext, upcoming, hc]
    rfl

/-- **Stepping goes through what is to come**, from the front, and then nothing is yielded. -/
theorem items_eq_take (n : Nat) (w : Walk) : w.items n = w.upcoming.take n := by
  induction n generalizing w with
  | zero => rfl
  | succ n ih =>
    have hitems : w.items (n + 1) = w.next.value.1.item?.toList ++ w.next.value.2.items n := by
      rw [items, yields, List.filterMap_cons]
      cases w.next.value.1.item? <;> rfl
    rw [hitems, ih, upcoming_next w]
    cases hstep : w.next.value.1 with
    | entry e => rfl
    | fault error => rfl
    | done =>
      rw [upcoming_of_finished (finished_next (w := w) (by simp [hstep]))]
      exact List.take_nil

/-- **The hint has room for all that is to come.** -/
theorem length_upcoming_le (w : Walk) : w.upcoming.length ≤ w.sizeHint.2 := by
  cases hf : w.finished with
  | true =>
    rw [upcoming_of_finished hf]
    exact Nat.zero_le _
  | false =>
    have hfields := w.length_entries_le
    rw [entries, Record.length_entries] at hfields
    have hfault : w.contents.fault.toList.length ≤ 1 := by
      cases w.contents.fault <;> simp
    rw [upcoming, List.length_append, List.length_map, List.length_map, sizeHint, hf]
    -- bytes behind the last declared entry are met as a fault that nobody declared
    exact Nat.add_le_add hfields hfault

/-- **Nothing is yielded behind a step that ends the walk.** -/
theorem eq_done_of_yields {w : Walk} {n : Nat} {front back : List Step} {step : Step}
    (h : w.yields n = front ++ step :: back) (hends : step.ends = true) :
    ∀ later ∈ back, later = .done := by
  induction front generalizing n w with
  | nil =>
    cases n with
    | zero => cases h
    | succ n =>
      rw [yields, List.nil_append, List.cons.injEq] at h
      obtain ⟨rfl, rfl⟩ := h
      have hover : w.next.value.2.finished = true := by
        refine finished_next fun e he => ?_
        rw [he] at hends
        cases hends
      rw [yields_of_finished hover]
      exact fun later => List.eq_of_mem_replicate
  | cons first front ih =>
    cases n with
    | zero => cases h
    | succ n =>
      rw [yields, List.cons_append, List.cons.injEq] at h
      exact ih h.2

/-! ## 2. Trails -/

/-- **What a step does to the accounts**: an entry is one less to come, nothing else is, and the
    walk is over behind any step but an entry. -/
theorem accounts_next (w : Walk) :
    ([w.next.value.1].filterMap Step.entry?).length + w.next.value.2.remaining = w.remaining ∧
      w.next.value.2.finished = (w.finished || w.next.value.1.ends) := by
  cases hf : w.finished with
  | true =>
    rw [next_of_finished hf]
    exact ⟨Nat.zero_add _, hf⟩
  | false =>
    cases hr : w.remaining with
    | zero => cases he : w.rest.isEmpty <;> simp [next, fail, hf, hr, he, Step.entry?, Step.ends]
    | succ remaining =>
      cases hd : Entry.decode w.offset w.rest with
      | error error => simp [next, fail, hf, hr, hd, Step.entry?, Step.ends]
      | ok decoded => simp [next, hf, hr, hd, Step.entry?, Step.ends, Nat.add_comm]

/-- The walk after so many steps. -/
def after : Nat → Walk → Walk
  | 0, w => w
  | n + 1, w => after n w.next.value.2

end Walk

/-- A walk under way, with what it has yielded since it was started. -/
structure Trail where
  met : List Walk.Step
  walk : Walk

/-- A walk that was stepped so many times. -/
def Walk.trail (n : Nat) (w : Walk) : Trail := ⟨w.yields n, w.after n⟩

namespace Trail

/-- One more step. -/
def step (t : Trail) : Trail := ⟨t.met ++ [t.walk.next.value.1], t.walk.next.value.2⟩

/-- A step more on a trail is the trail of a step more. -/
theorem step_trail (n : Nat) (w : Walk) : (w.trail n).step = w.trail (n + 1) := by
  induction n generalizing w with
  | zero => rfl
  | succ n ih =>
    have hmet := congrArg Trail.met (ih w.next.value.2)
    have hwalk := congrArg Trail.walk (ih w.next.value.2)
    exact congr (congrArg Trail.mk (congrArg (w.next.value.1 :: ·) hmet)) hwalk

/-- **The accounts of a trail** on which so many entries were declared. -/
structure Accounted (t : Trail) (declared : Nat) : Prop where
  /-- The entries met and those to come are as many as were declared. -/
  declared_eq : (t.met.filterMap Walk.Step.entry?).length + t.walk.remaining = declared
  /-- The walk is over exactly if a step was met that ends it. -/
  finished_eq : t.walk.finished = t.met.any Walk.Step.ends

/-- **A step keeps the accounts.** -/
theorem Accounted.step {t : Trail} {declared : Nat} (h : t.Accounted declared) :
    t.step.Accounted declared := by
  obtain ⟨hremaining, hfinished⟩ := t.walk.accounts_next
  constructor
  case declared_eq =>
    rw [Trail.step, List.filterMap_append, List.length_append, Nat.add_assoc, hremaining]
    exact h.declared_eq
  case finished_eq =>
    rw [Trail.step, hfinished, h.finished_eq, List.any_append]
    exact congrArg _ (Bool.or_false _).symm

/-- **So the accounts are right on every trail of a walk.** -/
theorem accounted_trail {w : Walk} (hf : w.finished = false) (n : Nat) :
    (w.trail n).Accounted w.remaining := by
  induction n with
  | zero => exact ⟨Nat.zero_add _, hf⟩
  | succ n ih => exact step_trail n w ▸ ih.step

/-- **The hint, told from what was met.** -/
theorem Accounted.sizeHint_eq {t : Trail} {declared : Nat} (h : t.Accounted declared) :
    t.walk.sizeHint = (0, if t.met.any Walk.Step.ends then 0 else
      declared - (t.met.filterMap Walk.Step.entry?).length + 1) := by
  rw [Walk.sizeHint, h.finished_eq]
  have hremaining : t.walk.remaining =
      declared - (t.met.filterMap Walk.Step.entry?).length := by
    have := h.declared_eq
    omega
  split
  · rfl
  · rw [hremaining]

/-- The hint is never above what was declared, and one. -/
theorem Accounted.sizeHint_le {t : Trail} {declared : Nat} (h : t.Accounted declared) :
    t.walk.sizeHint.2 ≤ declared + 1 := by
  rw [h.sizeHint_eq]
  split
  · exact Nat.zero_le _
  · exact Nat.succ_le_succ (Nat.sub_le _ _)

end Trail

/-! ## 3. Walks over one view -/

namespace View

/-- What is done with walks over one view: one more is started, or one of them is stepped. -/
inductive Move where
  | start
  | step (i : Nat)

/-- One move. A walk that was not started is not stepped. -/
def move (v : View) (trails : List Trail) : Move → List Trail
  | .start => trails ++ [⟨[], v.walk⟩]
  | .step i =>
    match trails[i]? with
    | some t => trails.set i t.step
    | none => trails

/-- The trails of all walks that were started. -/
def trails (v : View) (moves : List Move) : List Trail := moves.foldl v.move []

/-- The trail is that of a walk over the view alone. -/
def Leads (v : View) (t : Trail) : Prop := t = v.walk.trail t.met.length

theorem leads_step {v : View} {t : Trail} (h : v.Leads t) : v.Leads t.step := by
  have hstep := Trail.step_trail t.met.length v.walk
  rw [← h] at hstep
  rw [Leads, Trail.step, List.length_append]
  exact hstep

/-- **A move leaves every walk on the trail of a walk alone.** -/
theorem leads_move {v : View} {trails : List Trail} (h : ∀ t ∈ trails, v.Leads t) (m : Move) :
    ∀ t ∈ v.move trails m, v.Leads t := by
  intro t ht
  cases m with
  | start =>
    rcases List.mem_append.1 ht with hold | hnew
    · exact h t hold
    · rw [List.mem_singleton.1 hnew]
      rfl
  | step i =>
    rw [move] at ht
    split at ht
    · rename_i stepped hstepped
      rcases List.mem_or_eq_of_mem_set ht with hold | rfl
      · exact h t hold
      · exact leads_step (h stepped (List.mem_of_getElem? hstepped))
    · exact h t ht

/-- **However walks over one view are started and stepped, each goes the way of a walk alone.** -/
theorem trails_follow (v : View) (moves : List Move) : ∀ t ∈ v.trails moves, v.Leads t := by
  -- the walks that are there before the first of the moves stand anywhere on their trails
  have hrun : ∀ (moves : List Move) (trails : List Trail), (∀ t ∈ trails, v.Leads t) →
      ∀ t ∈ moves.foldl v.move trails, v.Leads t := by
    intro moves
    induction moves with
    | nil => exact fun trails h => h
    | cons m moves ih => exact fun trails h => ih _ (leads_move h m)
  exact hrun moves [] fun t ht => absurd ht List.not_mem_nil

end View

/-! ## 4. The contract -/

/-- **A walk keeps what its hints promise, wherever it stands.** After any number of steps over any
    bytes the bound is what the count declares less the entries met, and one more, as long as only
    entries were met; it is zero once the end or a fault was met. It is never above 2^32, so it fits
    a word of 64 bits. What the walk yields from there on is what is still to come, and that is no
    more than the bound. At most one fault is met, and nothing behind it; behind the end or the
    fault the walk never yields anything again. Walks over the view that are started anew, or are
    stepped in between, meet the same. -/
theorem walks_keep_their_hints (v : View) (n : Nat) :
    let met := v.walk.yields n
    let w := v.walk.after n
    w.sizeHint = (0, if met.any Walk.Step.ends then 0
      else v.length - (v.walk.yielded n).length + 1) ∧
    (v.walk.yielded n).length ≤ v.length ∧
    w.sizeHint.2 ≤ 4294967296 ∧
    (∀ m, w.items m = w.upcoming.take m) ∧
    w.upcoming.length ≤ w.sizeHint.2 ∧
    (v.walk.faults n).length ≤ 1 ∧
    (∀ front error back, met = front ++ .fault error :: back → ∀ later ∈ back, later = .done) ∧
    (met.any Walk.Step.ends = true → ∀ m, w.yields m = List.replicate m .done) ∧
    ∀ moves, ∀ t ∈ v.trails moves,
      t.met = v.walk.yields t.met.length ∧ t.walk = v.walk.after t.met.length := by
  intro met w
  have haccounts : (v.walk.trail n).Accounted v.length := Trail.accounted_trail rfl n
  have hentries : (v.walk.yielded n).length ≤ v.length := Nat.le.intro haccounts.declared_eq
  have hword : w.sizeHint.2 ≤ 4294967296 :=
    Nat.le_trans haccounts.sizeHint_le (Nat.succ_le_succ v.length_le_maxLength)
  refine ⟨haccounts.sizeHint_eq, hentries, hword, fun m => w.items_eq_take m, w.length_upcoming_le,
    v.walk.length_faults_le n, fun front error back h => Walk.eq_done_of_yields h rfl, ?_, ?_⟩
  · intro hends m
    exact Walk.yields_of_finished (haccounts.finished_eq.trans hends) m
  · intro moves t ht
    have hleads := v.trails_follow moves t ht
    exact ⟨congrArg Trail.met hleads, congrArg Trail.walk hleads⟩

/-- One field is declared and there, and a byte is left behind it. Behind the field the bound is
    one, and it is reached, since the fault is still to come; then nothing more is. A second walk
    that is started behind the field, and stepped in turn with the first, meets the same. -/
theorem hints_before_trailing_byte :
    let v : View := ⟨[1, 0, 0, 0, 1, 0, 0, 0, 97, 1, 0, 0, 0, 7, 9]⟩
    let error := CodecError.malformed 14 .trailingBytes
    let moves : List View.Move := [.start, .step 0, .start, .step 1, .step 0, .step 1, .step 1]
    (v.walk.after 1).sizeHint = (0, 1) ∧ (v.walk.after 1).items 5 = [.error error] ∧
      v.walk.yields 2 = [.entry ⟨4, [97], [7]⟩, .fault error] ∧
      (v.walk.after 2).sizeHint = (0, 0) ∧ (v.walk.after 2).yields 3 = [.done, .done, .done] ∧
      (v.trails moves).map (fun t => t.met.length) = [2, 3] ∧
      ∀ t ∈ v.trails moves, t.met = v.walk.yields t.met.length := by
  intro v error moves
  have hmet : v.walk.yields 2 = [.entry ⟨4, [97], [7]⟩, .fault error] := by decide
  obtain ⟨hone, -, -, hcoming, -⟩ := walks_keep_their_hints v 1
  obtain ⟨htwo, -, -, -, -, -, -, hover, htrails⟩ := walks_keep_their_hints v 2
  have hends : (v.walk.yields 2).any Walk.Step.ends = true := by rw [hmet]; rfl
  refine ⟨hone, hcoming 5, hmet, ?_, hover hends 3, by decide, ?_⟩
  · rw [htwo, if_pos hends]
  · exact fun t ht => (htrails moves t ht).1

end FieldRecords
