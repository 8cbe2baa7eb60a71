import FieldRecords.Bytes

/-!
# Programs over a key-value store

A store maps keys to values and answers five requests (`Request`, `Request.Reply`). A program
over a store is a tree: it is done, or it puts one request and goes on with the reply. So what a
client does between two requests happens at once, and what other clients do can fall only between
two requests; running the requests of several programs in some order is all that sharing a store
means.

A store is a state that serves requests (`KeyValueStore`). `Program.run` runs one program on it from
beginning to end, and `Program.tick` serves only the next request. Those who share a store take
turns in any order (`Shared.run`).
-/

namespace FieldRecords

/-- What a store can be asked. -/
inductive Request where
  /-- Sets the value of a key. -/
  | insert (key value : Bytes)
  | read (key : Bytes)
  /-- Sets the value of a key that is supposed to be there. -/
  | update (key value : Bytes)
  | delete (key : Bytes)
  /-- Up to `count` pairs in key order, from the first key on that is not below `key`. -/
  | scan (key : Bytes) (count : Nat)
deriving DecidableEq

/-- What a store answers: the value if there is one, whether there was something to delete, the
    pairs found, or `none` from a store that cannot scan. -/
abbrev Request.Reply : Request → Type
  | insert _ _ => Unit
  | read _ => Option Bytes
  | update _ _ => Unit
  | delete _ => Bool
  | scan _ _ => Option (List (Bytes × Bytes))

/-- A client's work as a tree of requests. -/
inductive Program (α : Type) : Type where
  | done (result : α)
  | call (request : Request) (resume : request.Reply → Program α)

namespace Program

variable {α β : Type}

/-- Work that goes on with the result of other work. -/
def andThen : Program α → (α → Program β) → Program β
  | done a, next => next a
  | call request resume, next => call request fun reply => (resume reply).andThen next

instance : Monad Program where
  pure := done
  bind := andThen

/-- One request. -/
def ask (request : Request) : Program request.Reply := call request done

end Program

/-- A state that serves requests. -/
class KeyValueStore (σ : Type) where
  serve : (request : Request) → σ → request.Reply × σ

/-- **Runs a program from beginning to end**, with no other client in between. -/
def Program.run {σ α : Type} [KeyValueStore σ] : Program α → σ → α × σ
  | .done a, s => (a, s)
  | .call request resume, s =>
    let (reply, s) := KeyValueStore.serve request s
    (resume reply).run s

namespace Program

variable {σ α β : Type} [KeyValueStore σ]

@[simp] theorem run_pure (a : α) (s : σ) : (pure a : Program α).run s = (a, s) := rfl

@[simp] theorem run_ask (request : Request) (s : σ) :
    (ask request).run s = KeyValueStore.serve request s := rfl

/-- **Work that goes on with the result of other work runs after it**, on the state it leaves. -/
@[simp] theorem run_bind (p : Program α) (next : α → Program β) (s : σ) :
    (p >>= next).run s = (next (p.run s).1).run (p.run s).2 := by
  change (p.andThen next).run s = _
  induction p generalizing s with
  | done a => rfl
  | call request resume ih => exact ih _ _

/-- Serves the next request of a program, if it has one. -/
def tick : Program α → σ → Program α × σ
  | done a, s => (done a, s)
  | call request resume, s =>
    let (reply, s) := KeyValueStore.serve request s
    (resume reply, s)

end Program

/-- A state, and what belongs to each of those who share it. -/
structure Shared (ι γ σ : Type) where
  state : σ
  parties : ι → γ

namespace Shared

variable {ι γ σ : Type} [DecidableEq ι]

/-- One party takes a turn. What belongs to the others stays as it is. -/
def turn (act : γ → σ → γ × σ) (w : Shared ι γ σ) (i : ι) : Shared ι γ σ :=
  let (party, state) := act (w.parties i) w.state
  ⟨state, fun j => if j = i then party else w.parties j⟩

/-- **One turn after the other**, in any order of the parties. -/
def run (act : γ → σ → γ × σ) (w : Shared ι γ σ) (turns : List ι) : Shared ι γ σ :=
  turns.foldl (turn act) w

theorem parties_turn (act : γ → σ → γ × σ) (w : Shared ι γ σ) (i j : ι) :
    (w.turn act i).parties j = if j = i then (act (w.parties i) w.state).1 else w.parties j := rfl

end Shared

end FieldRecords
