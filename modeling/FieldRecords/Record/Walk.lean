import FieldRecords.Record.Entry
import FieldRecords.Metric.Metered

/-!
# Walking over a record

A walk steps through the entries of a record, one at a time. It yields the entries in order, then
at most one fault, and then nothing more. A fault is an entry that cannot be read, or bytes that
are left after the last declared entry; it is counted when it is met, so a walk that stops before
it counts nothing.

Everything that reads a record is one of three uses of `Walk.next`: run through all entries
(`Walk.foldM`), run through them and keep what was reached when the run is refused
(`Walk.foldUntilRefused`), or look for the first entry of some kind (`Walk.find?`). The first
two differ only in what a refusal leaves (`Walk.run_foldM`).
-/

namespace FieldRecords

/-- The state of a walk: the bytes not yet read, the offset of the first of them, how many
    declared entries are still to come, and whether the walk is over. -/
structure Walk where
  rest : Bytes
  offset : Nat
  remaining : Nat
  finished : Bool
deriving DecidableEq

namespace Walk

/-- What one step of a walk yields. -/
inductive Step where
  | entry (e : Entry)
  | fault (error : CodecError)
  | done
deriving DecidableEq

variable {σ : Type}

/-! ## 1. One step -/

/-- The walk ends with a fault. -/
@[inline] def fail (w : Walk) (error : CodecError) : Metered (Step × Walk) := do
  Metered.count .decodeError
  return (.fault error, { w with finished := true })

/-- **One step**: the next entry; or, after the declared entries, a fault if bytes are left; or
    nothing, and from then on always nothing. -/
@[inline] def next (w : Walk) : Metered (Step × Walk) :=
  if w.finished then
    pure (.done, w)
  else
    match w.remaining with
    | 0 =>
      if w.rest.isEmpty then
        pure (.done, { w with finished := true })
      else
        w.fail (.malformed w.offset .trailingBytes)
    | remaining + 1 =>
      match Entry.decode w.offset w.rest with
      | .ok (e, rest) => pure (.entry e, ⟨rest, e.valueEnd, remaining, false⟩)
      | .error error => w.fail error

/-- A walk that is over yields nothing, reports nothing and stays as it is. -/
theorem next_of_finished {w : Walk} (h : w.finished = true) : w.next = pure (.done, w) := by
  rw [next, if_pos h]

/-- **A walk is over after anything but an entry.** -/
theorem finished_next {w : Walk} (h : ∀ e, w.next.value.1 ≠ .entry e) :
    w.next.value.2.finished = true := by
  by_cases hf : w.finished = true
  · rw [next_of_finished hf]
    exact hf
  · unfold next at h ⊢
    rw [if_neg hf] at h ⊢
    revert h
    split
    · intro _
      split <;> rfl
    · split
      · intro h
        exact absurd rfl (h _)
      · intro _
        rfl

/-- Bounds on the number of steps that still yield something. The upper bound has room for one
    fault after the declared entries. -/
def sizeHint (w : Walk) : Nat × Nat :=
  if w.finished then (0, 0) else (0, w.remaining + 1)

/-! ## 2. Whole walks -/

/-- At most `steps` steps, feeding every entry to `f`; a fault refuses the whole run. -/
def foldSteps (f : σ → Entry → Checked σ) : Nat → Walk → σ → Checked σ
  | 0, _, s => pure s
  | steps + 1, w, s => do
    match ← w.next with
    | (.entry e, w) => foldSteps f steps w (← f s e)
    | (.fault error, _) => throw error
    | (.done, _) => pure s

/-- Runs through all entries still to come, from the first on. -/
def foldM (f : σ → Entry → Checked σ) (w : Walk) (s : σ) : Checked σ :=
  foldSteps f (w.remaining + 1) w s

/-- At most `steps` steps, feeding every entry to `f`, up to a fault or an entry that is
    refused. -/
def foldStepsUntilRefused (f : σ → Entry → Checked σ) :
    Nat → Walk → σ → Metered (σ × Except CodecError Unit)
  | 0, _, s => pure (s, .ok ())
  | steps + 1, w, s => do
    match ← w.next with
    | (.entry e, w) =>
      match ← (f s e).run with
      | .ok s => foldStepsUntilRefused f steps w s
      | .error error => return (s, .error error)
    | (.fault error, _) => return (s, .error error)
    | (.done, _) => return (s, .ok ())

/-- **Runs through all entries still to come, up to a fault or the first entry that is refused.**
    What was reached before is kept, beside the refusal. -/
def foldUntilRefused (f : σ → Entry → Checked σ) (w : Walk) (s : σ) :
    Metered (σ × Except CodecError Unit) :=
  foldStepsUntilRefused f (w.remaining + 1) w s

/-- **The two runs go the same way**: with the same events to the same state, or to the same
    refusal. -/
theorem run_foldM (f : σ → Entry → Checked σ) (w : Walk) (s : σ) :
    (w.foldM f s).run =
      (fun (s, outcome) => outcome.map fun () => s) <$> w.foldUntilRefused f s := by
  unfold foldM foldUntilRefused
  generalize w.remaining + 1 = steps
  induction steps generalizing w s with
  | zero => rfl
  | succ steps ih =>
    rw [foldSteps, foldStepsUntilRefused, ExceptT.run_bind, map_bind,
      ExceptT.run_liftM, bind_map_left]
    refine bind_congr fun (step, w) => ?_
    cases step with
    | entry e =>
      dsimp only
      rw [ExceptT.run_bind, map_bind]
      refine bind_congr fun x => ?_
      cases x with
      | ok s => exact ih w s
      | error error => rfl
    | fault error => rfl
    | done => rfl

/-- At most `steps` steps, up to the first entry with property `p`. -/
def findSteps (p : Entry → Bool) : Nat → Walk → Checked (Option Entry)
  | 0, _ => pure none
  | steps + 1, w => do
    match ← w.next with
    | (.entry e, w) => if p e then pure (some e) else findSteps p steps w
    | (.fault error, _) => throw error
    | (.done, _) => pure none

/-- **The first entry with property `p`** among those still to come. The walk stops there, so
    what follows goes unread. -/
def find? (p : Entry → Bool) (w : Walk) : Checked (Option Entry) :=
  findSteps p (w.remaining + 1) w

end Walk

end FieldRecords
