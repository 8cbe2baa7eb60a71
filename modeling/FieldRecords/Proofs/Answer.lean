import FieldRecords.Metric.Metered

/-!
# Answers without their events

What an operation answers does not hang on the events it reports, so most facts about records are
facts about `Checked.answer`. This file says how answers are put together:

* `Checked.answer_bind` peels a sequence of steps apart, and `Answer.bind_eq_ok` does it for plain
  answers;
* `Answer.foldUntilRefused` is the run through a list up to the first refusal, on plain answers,
  and `Checked.value_foldUntilRefused` says that the metered run answers just that;
* `Agree` relates two answers: both are granted and the results belong together, or both are
  refused for the same reason. **Sequences and runs whose steps agree agree** (`Agree.bind`,
  `Agree.fold`).
-/

namespace FieldRecords

/-! ## 1. Sequences of steps -/

namespace Checked

variable {α β : Type}

@[simp] theorem value_map (f : α → β) (x : Metered α) : (f <$> x).value = f x.value := rfl

@[simp] theorem value_run (x : Checked α) : x.run.value = x.answer := rfl

@[simp] theorem answer_pure (a : α) : (pure a : Checked α).answer = .ok a := rfl

/-- A step that only reports is always granted. -/
@[simp] theorem answer_liftM (x : Metered α) : (liftM x : Checked α).answer = .ok x.value := rfl

/-- **A refused step refuses the sequence, and a granted one goes on.** -/
theorem answer_bind (x : Checked α) (f : α → Checked β) :
    (x >>= f).answer = x.answer.bind fun a => (f a).answer := by
  change (x.run >>= ExceptT.bindCont f).value = _
  rw [Metered.value_bind, value_run]
  cases x.answer <;> rfl

theorem answer_bind_ok {x : Checked α} {a : α} (h : x.answer = .ok a) (f : α → Checked β) :
    (x >>= f).answer = (f a).answer := by
  rw [answer_bind, h]
  rfl

/-- Reporting in front of a computation does not change its answer. -/
@[simp] theorem answer_liftM_bind (x : Metered α) (f : α → Checked β) :
    ((liftM x : Checked α) >>= f).answer = (f x.value).answer :=
  answer_bind_ok (answer_liftM x) f

end Checked

/-! ## 2. Runs through a list -/

namespace Answer

variable {ε α β σ τ : Type}

/-- **A sequence of answers is granted if both steps are.** -/
theorem bind_eq_ok {x : Except ε α} {f : α → Except ε β} {b : β} :
    x >>= f = .ok b ↔ ∃ a, x = .ok a ∧ f a = .ok b := by
  cases x with
  | ok a =>
    constructor
    · intro h
      exact ⟨a, rfl, h⟩
    · rintro ⟨_, ha, h⟩
      cases ha
      exact h
  | error error =>
    constructor
    · intro h
      cases h
    · rintro ⟨_, ha, -⟩
      cases ha

/-- **It is refused where the first of them is.** -/
theorem bind_eq_error {x : Except ε α} {f : α → Except ε β} {error : ε} :
    x >>= f = .error error ↔ x = .error error ∨ ∃ a, x = .ok a ∧ f a = .error error := by
  cases x with
  | ok a =>
    constructor
    · intro h
      exact .inr ⟨a, rfl, h⟩
    · rintro (h | ⟨_, ha, h⟩)
      · cases h
      · cases ha
        exact h
  | error refused =>
    constructor
    · intro h
      cases h
      exact .inl rfl
    · rintro (h | ⟨_, ha, -⟩)
      · cases h
        rfl
      · cases ha

/-- An answer that is told in other words is granted if it was. -/
theorem map_eq_ok {x : Except ε α} {f : α → β} {b : β} :
    x.map f = .ok b ↔ ∃ a, x = .ok a ∧ f a = b := by
  cases x with
  | ok a => simp [Except.map]
  | error error => simp [Except.map]

/-- An answer that is refused in other words is granted if it was. -/
theorem mapError_eq_ok {δ : Type} {x : Except ε α} {f : ε → δ} {a : α} :
    x.mapError f = .ok a ↔ x = .ok a := by
  cases x with
  | ok a =>
    constructor
    · intro h
      cases h
      rfl
    · intro h
      cases h
      rfl
  | error error =>
    constructor
    · intro h
      cases h
    · intro h
      cases h

/-- One step after the other, up to the first one that is refused. -/
def foldUntilRefused (f : σ → α → Except ε σ) : List α → σ → σ × Except ε Unit
  | [], s => (s, .ok ())
  | a :: rest, s =>
    match f s a with
    | .ok s => foldUntilRefused f rest s
    | .error error => (s, .error error)

/-- A run that is judged at its end, unless it was refused before. -/
def judgedBy (verdict : Except ε Unit) (run : σ × Except ε Unit) : σ × Except ε Unit :=
  (run.1, run.2.bind fun () => verdict)

theorem judgedBy_ok (run : σ × Except ε Unit) : judgedBy (.ok ()) run = run := by
  obtain ⟨s, outcome⟩ := run
  cases outcome <;> rfl

@[simp] theorem foldUntilRefused_nil (f : σ → α → Except ε σ) (s : σ) :
    foldUntilRefused f [] s = (s, .ok ()) := rfl

theorem foldUntilRefused_cons_ok {f : σ → α → Except ε σ} {s s' : σ} {a : α} (h : f s a = .ok s')
    (rest : List α) : foldUntilRefused f (a :: rest) s = foldUntilRefused f rest s' := by
  rw [foldUntilRefused, h]

theorem foldUntilRefused_cons_error {f : σ → α → Except ε σ} {s : σ} {a : α} {error : ε}
    (h : f s a = .error error) (rest : List α) :
    foldUntilRefused f (a :: rest) s = (s, .error error) := by
  rw [foldUntilRefused, h]

/-- A run is refused for what some step is refused for. -/
theorem refused_of_foldUntilRefused {f : σ → α → Except ε σ} {as : List α} {s : σ} {error : ε}
    (h : (foldUntilRefused f as s).2 = .error error) : ∃ s' a, f s' a = .error error := by
  induction as generalizing s with
  | nil => cases h
  | cons a rest ih =>
    cases hstep : f s a with
    | ok s' =>
      rw [foldUntilRefused_cons_ok hstep] at h
      exact ih h
    | error refused =>
      rw [foldUntilRefused_cons_error hstep] at h
      cases h
      exact ⟨s, a, hstep⟩

/-- A run that reads something off every item is a run through what is read off. -/
theorem foldUntilRefused_map (f : σ → β → Except ε σ) (g : α → β) (as : List α) (s : σ) :
    foldUntilRefused (fun s a => f s (g a)) as s = foldUntilRefused f (as.map g) s := by
  induction as generalizing s with
  | nil => rfl
  | cons a rest ih =>
    simp only [foldUntilRefused, List.map_cons]
    cases f s (g a) with
    | ok s' => exact ih s'
    | error error => rfl

/-- Steps that pass over what is not wanted are steps through what is wanted. -/
theorem foldUntilRefused_filter (f : σ → β → Except ε σ) (p : α → Bool) (g : α → β)
    (as : List α) (s : σ) :
    foldUntilRefused (fun s a => if p a then f s (g a) else .ok s) as s =
      foldUntilRefused f ((as.filter p).map g) s := by
  induction as generalizing s with
  | nil => rfl
  | cons a rest ih =>
    cases hp : p a with
    | true =>
      simp only [foldUntilRefused, hp, if_true, List.filter_cons_of_pos, List.map_cons]
      cases f s (g a) with
      | ok s' => exact ih s'
      | error error => rfl
    | false =>
      simp only [foldUntilRefused, hp, Bool.false_eq_true, if_false, not_false_eq_true,
        List.filter_cons_of_neg]
      exact ih s

end Answer

/-- **The metered run answers the plain run.** -/
theorem Checked.value_foldUntilRefused {α σ : Type} (f : σ → α → Checked σ) (as : List α) (s : σ) :
    (Checked.foldUntilRefused f as s).value =
      Answer.foldUntilRefused (fun s a => (f s a).answer) as s := by
  induction as generalizing s with
  | nil => rfl
  | cons a rest ih =>
    simp only [Checked.foldUntilRefused, Metered.value_bind, Checked.value_run,
      Answer.foldUntilRefused]
    cases (f s a).answer with
    | ok s' => exact ih s'
    | error error => rfl

/-- A metered run whose steps are all granted and report nothing is the usual fold. -/
theorem Checked.foldUntilRefused_pure {α σ : Type} (g : σ → α → σ) (as : List α) (s : σ) :
    Checked.foldUntilRefused (fun s a => (pure (g s a) : Checked σ)) as s =
      pure (as.foldl g s, .ok ()) := by
  induction as generalizing s with
  | nil => rfl
  | cons a rest ih => exact ih (g s a)

/-! ## 3. Answers that agree -/

/-- Both answers are granted and the results belong together, or both are refused for the same
    reason. -/
inductive Agree {ε σ τ : Type} (R : σ → τ → Prop) : Except ε σ → Except ε τ → Prop where
  | ok {s : σ} {t : τ} (h : R s t) : Agree R (.ok s) (.ok t)
  | error (error : ε) : Agree R (.error error) (.error error)

namespace Agree

variable {ε α σ τ : Type} {R : σ → τ → Prop}

/-- Results that belong together in one way may do so in another. -/
theorem imp {S : σ → τ → Prop} {x : Except ε σ} {y : Except ε τ} (h : Agree R x y)
    (hRS : ∀ s t, R s t → S s t) : Agree S x y := by
  cases h with
  | ok h => exact ok (hRS _ _ h)
  | error error => exact .error error

/-- An answer that agrees with a granted one is granted. -/
theorem granted {s : σ} {y : Except ε τ} (h : Agree R (.ok s) y) : ∃ t, y = .ok t ∧ R s t := by
  cases h with
  | ok h => exact ⟨_, rfl, h⟩

/-- The same the other way. -/
theorem of_granted {x : Except ε σ} {t : τ} (h : Agree R x (.ok t)) : ∃ s, x = .ok s ∧ R s t := by
  cases h with
  | ok h => exact ⟨_, rfl, h⟩

/-- **Sequences agree if their steps do.** -/
theorem bind {β γ : Type} {S : β → γ → Prop} {x : Except ε σ} {y : Except ε τ} (h : Agree R x y)
    {f : σ → Except ε β} {g : τ → Except ε γ} (hfg : ∀ s t, R s t → Agree S (f s) (g t)) :
    Agree S (x.bind f) (y.bind g) := by
  cases h with
  | ok h => exact hfg _ _ h
  | error error => exact .error error

/-- Reasons that are told in other words still agree. -/
theorem mapError {δ : Type} {x : Except ε σ} {y : Except ε τ} (h : Agree R x y) (f : ε → δ) :
    Agree R (x.mapError f) (y.mapError f) := by
  cases h with
  | ok h => exact ok h
  | error error => exact .error (f error)

/-- Reporting behind a step does not change what it agrees with. -/
theorem then_report {R : σ → τ → Prop} {x : Checked σ} {y : Except CodecError τ}
    (h : Agree R x.answer y) {f : σ → Checked σ} (hf : ∀ s, (f s).answer = .ok s) :
    Agree R (x >>= f).answer y := by
  rw [Checked.answer_bind]
  generalize x.answer = answer at h
  cases h with
  | ok h =>
    show Agree R (f _).answer _
    rw [hf]
    exact ok h
  | error error => exact .error error

/-- **Runs whose steps agree agree**: they end in states that belong together, and with the same
    outcome. -/
theorem fold {f : σ → α → Except ε σ} {g : τ → α → Except ε τ} (as : List α)
    (hstep : ∀ s t, R s t → ∀ a ∈ as, Agree R (f s a) (g t a)) {s : σ} {t : τ} (h : R s t) :
    R (Answer.foldUntilRefused f as s).1 (Answer.foldUntilRefused g as t).1 ∧
      (Answer.foldUntilRefused f as s).2 = (Answer.foldUntilRefused g as t).2 := by
  induction as generalizing s t with
  | nil => exact ⟨h, rfl⟩
  | cons a rest ih =>
    have hrest : ∀ s t, R s t → ∀ a ∈ rest, Agree R (f s a) (g t a) :=
      fun s t hst a ha => hstep s t hst a (List.mem_cons_of_mem _ ha)
    have ha := hstep s t h a List.mem_cons_self
    simp only [Answer.foldUntilRefused]
    generalize f s a = x at ha
    generalize g t a = y at ha
    cases ha with
    | ok hst => exact ih hrest hst
    | error error => exact ⟨h, rfl⟩

end Agree

end FieldRecords
