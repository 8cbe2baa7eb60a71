import FieldRecords.Metric.Event
import FieldRecords.Record.Error

/-!
# Metered computations

A metered computation is a value together with the events reported on the way to it, in order.
The events never decide the value: nothing in the codec reads them back. An operation that can
be refused is a metered computation of an answer or a `CodecError` (`Checked`); a refusal keeps
the events reported before it.
-/

namespace FieldRecords

/-- A value and the events reported on the way to it. -/
structure Metered (α : Type) where
  value : α
  events : List Event

namespace Metered

variable {α β γ : Type}

instance : Monad Metered where
  pure a := ⟨a, []⟩
  bind x f :=
    let y := f x.value
    ⟨y.value, x.events ++ y.events⟩

@[simp] theorem value_pure (a : α) : (pure a : Metered α).value = a := rfl

@[simp] theorem events_pure (a : α) : (pure a : Metered α).events = [] := rfl

@[simp] theorem value_bind (x : Metered α) (f : α → Metered β) :
    (x >>= f).value = (f x.value).value := rfl

@[simp] theorem events_bind (x : Metered α) (f : α → Metered β) :
    (x >>= f).events = x.events ++ (f x.value).events := rfl

@[ext] theorem ext {x y : Metered α} (hv : x.value = y.value) (he : x.events = y.events) :
    x = y := by
  cases x; cases y; cases hv; cases he; rfl

instance : LawfulMonad Metered :=
  LawfulMonad.mk' Metered
    (fun x => ext rfl (List.append_nil x.events))
    (fun _ _ => rfl)
    (fun x f g => ext rfl (List.append_assoc x.events (f x.value).events _))

/-- Reports one event. -/
def report (event : Event) : Metered Unit := ⟨(), [event]⟩

/-- Counts one occurrence. -/
def count (counter : Counter) : Metered Unit := report (.count counter 1)

/-- Files one occurrence under a size. -/
def hit (histogram : Histogram) (size : Nat) : Metered Unit :=
  report (.hit histogram size.toUInt64)

/-- Takes a time sample. How long a call takes is not part of what it computes, so the sample
    is of length zero and only its presence counts. -/
def sample (timer : Timer) : Metered Unit := report (.time timer 0)

@[simp] theorem events_count (c : Counter) : (count c).events = [.count c 1] := rfl

@[simp] theorem events_hit (h : Histogram) (n : Nat) : (hit h n).events = [.hit h n.toUInt64] :=
  rfl

@[simp] theorem events_sample (t : Timer) : (sample t).events = [.time t 0] := rfl

end Metered

/-- A metered computation that can be refused. -/
abbrev Checked (α : Type) : Type := ExceptT CodecError Metered α

namespace Checked

variable {α σ : Type}

/-- Refuses because of broken structure, and counts the refusal. -/
def malformed (offset : Nat) (reason : Malformed) : Checked α := do
  Metered.count .decodeError
  throw (.malformed offset reason)

/-- The answer, without the events. -/
def answer (x : Checked α) : Except CodecError α := x.run.value

/-- The events, without the answer. -/
def events (x : Checked α) : List Event := x.run.events

/-- **One step after the other, up to the first one that is refused.** What the steps before it
    reached is kept, beside the refusal. -/
def foldUntilRefused (f : σ → α → Checked σ) : List α → σ → Metered (σ × Except CodecError Unit)
  | [], s => pure (s, .ok ())
  | a :: rest, s => do
    match ← (f s a).run with
    | .ok s => foldUntilRefused f rest s
    | .error error => return (s, .error error)

end Checked

end FieldRecords
