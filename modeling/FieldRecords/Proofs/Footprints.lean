import FieldRecords.Store.Engines

/-!
# Programs on keys of their own

Most requests are about one key (`Request.key?`). A program is confined to some keys if each of its
requests is about one of them (`Program.Confined`); then it neither sees nor changes anything else
in the store (`Program.Confined.run_sameOn`, `Program.Confined.run_other`).

When programs with disjoint keys share a store, the rest of each program, run on the store as it is,
still ends as the whole program would have ended on the store as it was at the start, and that is
the invariant of a run (`Shared.OnCourse`). It holds whether a turn serves one request
(`Program.tick`) or everything that is left (`Program.finish`). So **once all programs are done, it
makes no difference in which order their requests were served** (`Shared.OnCourse.eq_of_done`).
-/

namespace FieldRecords

/-! ## 1. Requests -/

/-- The key that a request is about. A scan is about many. -/
def Request.key? : Request → Option Bytes
  | insert key _ => some key
  | read key => some key
  | update key _ => some key
  | delete key => some key
  | scan _ _ => none

namespace MemoryStore

/-- Two stores have the same values under these keys. -/
def SameOn (keys : Bytes → Prop) (m₁ m₂ : MemoryStore) : Prop :=
  ∀ key, keys key → m₁[key]? = m₂[key]?

variable {keys : Bytes → Prop} {m₁ m₂ : MemoryStore} {request : Request} {key : Bytes}

/-- A request about one key leaves the values of all others. -/
theorem serve_other (hkey : request.key? = some key) {other : Bytes} (hne : key ≠ other)
    (m : MemoryStore) : (serve request m).2[other]? = m[other]? := by
  have hcompare : ¬ compare key other = .eq := fun h => hne (Std.LawfulEqCmp.eq_of_compare h)
  cases request with
  | insert k value =>
    cases hkey
    exact Std.ExtTreeMap.getElem?_insert.trans (if_neg hcompare)
  | read k => rfl
  | update k value =>
    cases hkey
    exact Std.ExtTreeMap.getElem?_insert.trans (if_neg hcompare)
  | delete k =>
    cases hkey
    exact Std.ExtTreeMap.getElem?_erase.trans (if_neg hcompare)
  | scan k count => rfl

/-- **A request is answered by the value of its key**, and what becomes of the key hangs on nothing
    else. -/
theorem serve_sameOn (hkey : request.key? = some key) (hin : keys key) (h : SameOn keys m₁ m₂) :
    (serve request m₁).1 = (serve request m₂).1 ∧
      SameOn keys (serve request m₁).2 (serve request m₂).2 := by
  have hvalue : m₁[key]? = m₂[key]? := h key hin
  cases request with
  | insert k value =>
    refine ⟨rfl, fun other hother => ?_⟩
    simp only [serve, Std.ExtTreeMap.getElem?_insert, h other hother]
  | read k =>
    cases hkey
    exact ⟨hvalue, h⟩
  | update k value =>
    refine ⟨rfl, fun other hother => ?_⟩
    simp only [serve, Std.ExtTreeMap.getElem?_insert, h other hother]
  | delete k =>
    cases hkey
    refine ⟨?_, fun other hother => ?_⟩
    · simp only [serve, Std.ExtTreeMap.contains_eq_isSome_getElem?, hvalue]
    · simp only [serve, Std.ExtTreeMap.getElem?_erase, h other hother]
  | scan k count => cases hkey

end MemoryStore

/-! ## 2. Programs -/

namespace Program

variable {α β : Type} {keys : Bytes → Prop} {n : Nat} {p : Program α}

/-- No request is left. -/
def IsDone : Program α → Prop
  | done _ => True
  | call _ _ => False

instance : (p : Program α) → Decidable p.IsDone
  | done _ => inferInstanceAs (Decidable True)
  | call _ _ => inferInstanceAs (Decidable False)

/-- **The program makes `n` requests at most, and each is about one of these keys**, however it is
    answered. -/
def Confined (keys : Bytes → Prop) : Nat → Program α → Prop
  | _, done _ => True
  | 0, call _ _ => False
  | n + 1, call request resume =>
    (∃ key, request.key? = some key ∧ keys key) ∧ ∀ reply, (resume reply).Confined keys n

theorem confined_done (a : α) : (done a).Confined keys n := by
  cases n <;> exact trivial

theorem confined_ask {request : Request} {key : Bytes} (hkey : request.key? = some key)
    (hin : keys key) : (ask request).Confined keys 1 :=
  ⟨⟨key, hkey, hin⟩, fun reply => confined_done reply⟩

/-- More requests could be made. -/
theorem Confined.mono (h : p.Confined keys n) {k : Nat} (hle : n ≤ k) : p.Confined keys k := by
  induction p generalizing n k with
  | done a => exact confined_done a
  | call request resume ih =>
    cases n with
    | zero => exact h.elim
    | succ n =>
      cases k with
      | zero => omega
      | succ k => exact ⟨h.1, fun reply => ih reply (h.2 reply) (Nat.le_of_succ_le_succ hle)⟩

/-- Work that goes on with the result of other work makes the requests of both. -/
theorem Confined.bind (h : p.Confined keys n) {k : Nat} {next : α → Program β}
    (hnext : ∀ a, (next a).Confined keys k) : (p >>= next).Confined keys (n + k) := by
  change (p.andThen next).Confined keys (n + k)
  induction p generalizing n with
  | done a => exact (hnext a).mono (Nat.le_add_left k n)
  | call request resume ih =>
    cases n with
    | zero => exact h.elim
    | succ n =>
      rw [Nat.add_right_comm]
      exact ⟨h.1, fun reply => ih reply (h.2 reply)⟩

theorem Confined.isDone (h : p.Confined keys 0) : p.IsDone := by
  cases p with
  | done a => exact trivial
  | call request resume => exact h

/-- **What a program does hangs on nothing but the values of its keys.** -/
theorem Confined.run_sameOn (h : p.Confined keys n) {m₁ m₂ : MemoryStore}
    (hsame : MemoryStore.SameOn keys m₁ m₂) :
    (p.run m₁).1 = (p.run m₂).1 ∧ MemoryStore.SameOn keys (p.run m₁).2 (p.run m₂).2 := by
  induction p generalizing n m₁ m₂ with
  | done a => exact ⟨rfl, hsame⟩
  | call request resume ih =>
    cases n with
    | zero => exact h.elim
    | succ n =>
      obtain ⟨⟨key, hkey, hin⟩, hresume⟩ := h
      obtain ⟨hreply, hleft⟩ := MemoryStore.serve_sameOn hkey hin hsame
      have hrest := ih _ (hresume (MemoryStore.serve request m₁).1) hleft
      change ((resume (MemoryStore.serve request m₁).1).run _).1 =
          ((resume (MemoryStore.serve request m₂).1).run _).1 ∧
        MemoryStore.SameOn keys ((resume (MemoryStore.serve request m₁).1).run _).2
          ((resume (MemoryStore.serve request m₂).1).run _).2
      rw [← hreply]
      exact hrest

/-- **A program leaves the values of all other keys.** -/
theorem Confined.run_other (h : p.Confined keys n) {key : Bytes} (hkey : ¬ keys key)
    (m : MemoryStore) : (p.run m).2[key]? = m[key]? := by
  induction p generalizing n m with
  | done a => rfl
  | call request resume ih =>
    cases n with
    | zero => exact h.elim
    | succ n =>
      obtain ⟨⟨own, hown, hin⟩, hresume⟩ := h
      have hne : own ≠ key := fun e => hkey (e ▸ hin)
      exact (ih _ (hresume _) _).trans (MemoryStore.serve_other hown hne m)

/-! ## 3. Ways of going on -/

/-- Serves all requests that a program has left. -/
def finish {σ : Type} [KeyValueStore σ] (p : Program α) (s : σ) : Program α × σ :=
  let (a, s) := p.run s
  (done a, s)

/-- **A way of going on with a program**: some of the requests that it has left are served, and
    nothing else is done. -/
structure Advances (act : Program α → MemoryStore → Program α × MemoryStore) : Prop where
  run_eq : ∀ p m, (act p m).1.run (act p m).2 = p.run m
  confined : ∀ {keys n p}, p.Confined keys n → ∀ m, (act p m).1.Confined keys n
  other : ∀ {keys n p}, p.Confined keys n → ∀ {key}, ¬ keys key →
    ∀ m, (act p m).2[key]? = m[key]?

/-- A request that is served is not made again. -/
theorem Confined.tick (h : p.Confined keys n) (m : MemoryStore) :
    (p.tick m).1.Confined keys (n - 1) := by
  cases p with
  | done a => exact confined_done a
  | call request resume =>
    cases n with
    | zero => exact h.elim
    | succ n => exact h.2 _

theorem advances_tick : Advances (tick : Program α → MemoryStore → Program α × MemoryStore) where
  run_eq p m := by cases p <;> rfl
  confined h m := (h.tick m).mono (Nat.sub_le _ 1)
  other {keys n p} h key hkey m := by
    cases p with
    | done a => rfl
    | call request resume =>
      cases n with
      | zero => exact h.elim
      | succ n =>
        obtain ⟨own, hown, hin⟩ := h.1
        have hne : own ≠ key := fun e => hkey (e ▸ hin)
        exact MemoryStore.serve_other hown hne m

theorem advances_finish :
    Advances (finish : Program α → MemoryStore → Program α × MemoryStore) where
  run_eq _ _ := rfl
  confined _ _ := confined_done _
  other h _ hkey m := h.run_other hkey m

end Program

/-! ## 4. Runs -/

namespace Shared

variable {ι α : Type} {keys : ι → Bytes → Prop} {n : ι → Nat}
  {start w : Shared ι (Program α) MemoryStore}

/-- **What holds between turns**: what every party has left is confined to its keys and ends as all
    of it would have ended at the start, both in its result and under its keys. The values of keys
    that nobody has are still there. -/
structure OnCourse (keys : ι → Bytes → Prop) (n : ι → Nat)
    (start w : Shared ι (Program α) MemoryStore) : Prop where
  confined : ∀ i, (w.parties i).Confined (keys i) (n i)
  result_eq : ∀ i, ((w.parties i).run w.state).1 = ((start.parties i).run start.state).1
  own : ∀ i, MemoryStore.SameOn (keys i) ((w.parties i).run w.state).2
    ((start.parties i).run start.state).2
  other : MemoryStore.SameOn (fun key => ∀ i, ¬ keys i key) w.state start.state

theorem onCourse_start (h : ∀ i, (start.parties i).Confined (keys i) (n i)) :
    OnCourse keys n start start where
  confined := h
  result_eq _ := rfl
  own _ _ _ := rfl
  other _ _ := rfl

/-- A party that is done has the result that it would have had alone. -/
theorem OnCourse.eq_done (h : OnCourse keys n start w) {i : ι} (hdone : (w.parties i).IsDone) :
    w.parties i = .done ((start.parties i).run start.state).1 ∧
      MemoryStore.SameOn (keys i) w.state ((start.parties i).run start.state).2 := by
  have hresult := h.result_eq i
  have hown := h.own i
  cases hparty : w.parties i with
  | call request resume =>
    rw [hparty] at hdone
    exact hdone.elim
  | done a =>
    rw [hparty] at hresult hown
    exact ⟨congrArg Program.done hresult, hown⟩

/-- **When all parties are done, nothing is left of the order of their turns.** -/
theorem OnCourse.eq_of_done {w₁ w₂ : Shared ι (Program α) MemoryStore}
    (h₁ : OnCourse keys n start w₁) (h₂ : OnCourse keys n start w₂)
    (hdone₁ : ∀ i, (w₁.parties i).IsDone) (hdone₂ : ∀ i, (w₂.parties i).IsDone) : w₁ = w₂ := by
  have hparties : w₁.parties = w₂.parties := funext fun i =>
    (h₁.eq_done (hdone₁ i)).1.trans (h₂.eq_done (hdone₂ i)).1.symm
  have hstate : w₁.state = w₂.state := by
    refine Std.ExtTreeMap.ext_getElem? fun key => ?_
    by_cases hkey : ∃ i, keys i key
    · obtain ⟨i, hi⟩ := hkey
      exact ((h₁.eq_done (hdone₁ i)).2 key hi).trans ((h₂.eq_done (hdone₂ i)).2 key hi).symm
    · have hnobody : ∀ i, ¬ keys i key := fun i hi => hkey ⟨i, hi⟩
      exact (h₁.other key hnobody).trans (h₂.other key hnobody).symm
  cases w₁
  cases w₂
  cases hparties
  cases hstate
  rfl

variable [DecidableEq ι]

/-- **A turn of one party leaves every party on course**: its own rest ends as before, and the
    others do not see it. -/
theorem OnCourse.turn (h : OnCourse keys n start w)
    (hdisjoint : ∀ i j, i ≠ j → ∀ key, keys i key → ¬ keys j key)
    {act : Program α → MemoryStore → Program α × MemoryStore} (hact : Program.Advances act)
    (i : ι) :
    OnCourse keys n start (w.turn act i) := by
  have hstate : (w.turn act i).state = (act (w.parties i) w.state).2 := rfl
  have hself : (w.turn act i).parties i = (act (w.parties i) w.state).1 := by
    rw [parties_turn, if_pos rfl]
  have hothers : ∀ j, j ≠ i → (w.turn act i).parties j = w.parties j := fun j hj => by
    rw [parties_turn, if_neg hj]
  have hunseen : ∀ j, j ≠ i →
      MemoryStore.SameOn (keys j) (act (w.parties i) w.state).2 w.state := fun j hj key hkey =>
    hact.other (h.confined i) (hdisjoint j i hj key hkey) w.state
  constructor
  case confined =>
    intro j
    by_cases hj : j = i
    · rw [hj, hself]
      exact hact.confined (h.confined i) w.state
    · rw [hothers j hj]
      exact h.confined j
  case result_eq =>
    intro j
    by_cases hj : j = i
    · rw [hj, hself, hstate, hact.run_eq]
      exact h.result_eq i
    · rw [hothers j hj, hstate, ((h.confined j).run_sameOn (hunseen j hj)).1]
      exact h.result_eq j
  case own =>
    intro j
    by_cases hj : j = i
    · rw [hj, hself, hstate, hact.run_eq]
      exact h.own i
    · rw [hothers j hj, hstate]
      intro key hkey
      rw [((h.confined j).run_sameOn (hunseen j hj)).2 key hkey]
      exact h.own j key hkey
  case other =>
    intro key hkey
    rw [hstate, hact.other (h.confined i) (hkey i)]
    exact h.other key hkey

theorem OnCourse.run (h : OnCourse keys n start w)
    (hdisjoint : ∀ i j, i ≠ j → ∀ key, keys i key → ¬ keys j key)
    {act : Program α → MemoryStore → Program α × MemoryStore} (hact : Program.Advances act)
    (turns : List ι) : OnCourse keys n start (w.run act turns) := by
  induction turns generalizing w with
  | nil => exact h
  | cons i turns ih => exact ih (h.turn hdisjoint hact i)

/-- Every turn of a party leaves it one request less to make. -/
theorem confined_run_tick (h : ∀ i, (w.parties i).Confined (keys i) (n i)) (turns : List ι)
    (i : ι) :
    ((w.run Program.tick turns).parties i).Confined (keys i) (n i - turns.count i) := by
  induction turns generalizing w n with
  | nil => exact h i
  | cons j turns ih =>
    let left : ι → Nat := fun i => if i = j then n i - 1 else n i
    have hturn : ∀ i, ((w.turn Program.tick j).parties i).Confined (keys i) (left i) := by
      intro i
      rw [parties_turn]
      by_cases hij : i = j
      · simp only [left, if_pos hij]
        rw [← hij]
        exact (h i).tick w.state
      · simp only [left, if_neg hij]
        exact h i
    have hrest := ih hturn
    have hcount : left i - turns.count i = n i - (j :: turns).count i := by
      simp only [left, List.count_cons, beq_iff_eq]
      by_cases hij : i = j
      · rw [if_pos hij, if_pos hij.symm]
        omega
      · rw [if_neg hij, if_neg (Ne.symm hij)]
        omega
    rw [hcount] at hrest
    exact hrest

/-- **With as many turns as requests, every party is done.** -/
theorem isDone_run_tick (h : ∀ i, (w.parties i).Confined (keys i) (n i)) {turns : List ι} {i : ι}
    (hturns : n i ≤ turns.count i) : ((w.run Program.tick turns).parties i).IsDone := by
  have hleft := confined_run_tick h turns i
  rw [Nat.sub_eq_zero_of_le hturns] at hleft
  exact hleft.isDone

/-- A party whose turn comes is done if a turn is all that is left. -/
theorem isDone_run_finish {order : List ι} {i : ι} (h : (w.parties i).IsDone ∨ i ∈ order) :
    ((w.run Program.finish order).parties i).IsDone := by
  induction order generalizing w with
  | nil => exact h.resolve_right List.not_mem_nil
  | cons j order ih =>
    refine ih ?_
    rw [parties_turn]
    by_cases hij : i = j
    · rw [if_pos hij]
      exact .inl trivial
    · rw [if_neg hij]
      exact h.imp_right fun hmem => (List.mem_cons.1 hmem).resolve_left hij

end Shared

end FieldRecords
