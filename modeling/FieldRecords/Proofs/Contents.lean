import FieldRecords.Record.View
import FieldRecords.Proofs.Answer

/-!
# What a byte string holds

Read as a record, a byte string holds some fields and then, perhaps, a fault (`Contents`). The
contents are found by recursion on the number of declared fields (`Contents.read`), with no walk
and no state, and everything that walks over a record is told from them:

* a run through the entries is a run through the fields of the contents, each where it stands
  (`Record.entries`), and then the fault (`Walk.foldUntilRefused_eq`);
* a lookup finds the first such field, and meets the fault only if there is none
  (`Walk.find?_eq`);
* fields that are read into a list are written over it one behind the other
  (`RowList.toList_putAll`), and then it is cut off, or emptied (`View.readInto_eq`);
* **a view is valid if its contents have no fault, and its fields are those of the contents**
  (`View.validate_eq`, `View.answer_toFields`).
-/

namespace FieldRecords

/-- The fields a byte string holds up to the first fault, and that fault. -/
structure Contents where
  fields : List Field
  fault : Option CodecError
deriving DecidableEq

/-! ## 1. Contents and where they stand -/

/-- Fields as entries, one behind the other, the first of which starts at offset `start`. -/
def Record.entries : Nat → List Field → List Entry
  | _, [] => []
  | start, f :: fields =>
    ⟨start, f.name, f.value⟩ :: entries (start + f.encode.length) fields

@[simp] theorem Record.map_field_entries (start : Nat) (fields : List Field) :
    (Record.entries start fields).map Entry.field = fields := by
  induction fields generalizing start with
  | nil => rfl
  | cons f fields ih =>
    rw [Record.entries, List.map_cons, ih]
    rfl

theorem Record.length_entries (start : Nat) (fields : List Field) :
    (Record.entries start fields).length = fields.length := by
  rw [← List.length_map Entry.field, Record.map_field_entries]

namespace Contents

/-- One field more in front. -/
def cons (f : Field) (c : Contents) : Contents := ⟨f :: c.fields, c.fault⟩

/-- **What bytes hold** that are said to be `count` fields, the first at offset `offset`. -/
def read : Nat → Nat → Bytes → Contents
  | 0, offset, bs =>
    ⟨[], if bs.isEmpty then none else some (.malformed offset .trailingBytes)⟩
  | count + 1, offset, bs =>
    match Entry.decode offset bs with
    | .ok (e, rest) => (read count e.valueEnd rest).cons e.field
    | .error error => ⟨[], some error⟩

/-- Whoever comes to the end is refused by the fault, if there is one. -/
def verdict (c : Contents) : Except CodecError Unit :=
  match c.fault with
  | none => .ok ()
  | some error => .error error

/-- Coming to the end: the fault is counted where it is met. -/
def conclude (c : Contents) : Checked Unit :=
  match c.fault with
  | none => pure ()
  | some error => do
    Metered.count .decodeError
    throw error

@[simp] theorem answer_conclude (c : Contents) : c.conclude.answer = c.verdict := by
  unfold conclude verdict
  cases c.fault <;> rfl

theorem verdict_eq_ok {c : Contents} : c.verdict = .ok () ↔ c.fault = none := by
  unfold verdict
  cases c.fault <;> simp

theorem verdict_eq_error {c : Contents} {error : CodecError} :
    c.verdict = .error error ↔ c.fault = some error := by
  unfold verdict
  cases c.fault <;> simp

end Contents

/-! ## 2. Walks -/

namespace Walk

variable {σ : Type}

/-- What a walk has still to meet. -/
def contents (w : Walk) : Contents :=
  if w.finished then ⟨[], none⟩ else .read w.remaining w.offset w.rest

/-- The entries a walk has still to yield. -/
def entries (w : Walk) : List Entry := Record.entries w.offset w.contents.fields

/-- A step that yields an entry takes it off the contents. -/
theorem contents_of_decode {w : Walk} {e : Entry} {rest : Bytes} {remaining : Nat}
    (hf : w.finished = false) (hr : w.remaining = remaining + 1)
    (hd : Entry.decode w.offset w.rest = .ok (e, rest)) :
    w.contents = (Contents.read remaining e.valueEnd rest).cons e.field ∧
      w.entries =
        e :: Record.entries e.valueEnd (Contents.read remaining e.valueEnd rest).fields := by
  obtain ⟨hs, -, -⟩ := Entry.eq_encode_of_decode hd
  have hc : w.contents = (Contents.read remaining e.valueEnd rest).cons e.field := by
    simp only [contents, hf, Bool.false_eq_true, if_false, hr, Contents.read, hd]
  refine ⟨hc, ?_⟩
  rw [entries, hc, Entry.valueEnd_eq, hs]
  simp only [Contents.cons, Record.entries, ← hs]
  rfl

/-- **The three ways a step can go**, told from the contents. -/
theorem next_cases (w : Walk) :
    (w.contents = ⟨[], none⟩ ∧ ∃ w', w.next = pure (.done, w')) ∨
    (∃ error, w.contents = ⟨[], some error⟩ ∧ w.next = w.fail error) ∨
    (∃ e w', w'.finished = false ∧ w'.remaining + 1 = w.remaining ∧
      w.contents = w'.contents.cons e.field ∧ w.entries = e :: w'.entries ∧
      w.next = pure (.entry e, w')) := by
  cases hf : w.finished with
  | true => exact .inl ⟨by rw [contents, hf, if_pos rfl], w, next_of_finished hf⟩
  | false =>
    cases hr : w.remaining with
    | zero =>
      cases he : w.rest.isEmpty with
      | true =>
        refine .inl ⟨?_, { w with finished := true }, ?_⟩
        · simp [contents, hf, hr, Contents.read, he]
        · simp [next, hf, hr, he]
      | false =>
        refine .inr (.inl ⟨.malformed w.offset .trailingBytes, ?_, ?_⟩)
        · simp [contents, hf, hr, Contents.read, he]
        · simp [next, hf, hr, he]
    | succ remaining =>
      cases hd : Entry.decode w.offset w.rest with
      | error error =>
        refine .inr (.inl ⟨error, ?_, ?_⟩)
        · simp [contents, hf, hr, Contents.read, hd]
        · simp [next, hf, hr, hd]
      | ok decoded =>
        obtain ⟨e, rest⟩ := decoded
        obtain ⟨hc, hes⟩ := contents_of_decode hf hr hd
        refine .inr (.inr ⟨e, ⟨rest, e.valueEnd, remaining, false⟩, rfl, rfl, hc, hes, ?_⟩)
        simp [next, hf, hr, hd]

/-- **A run goes through the entries, and then meets the fault.** -/
theorem foldUntilRefused_eq (f : σ → Entry → Checked σ) (w : Walk) (s : σ) :
    w.foldUntilRefused f s = (do
      let (s, outcome) ← Checked.foldUntilRefused f w.entries s
      match outcome with
      | .ok () => return (s, ← w.contents.conclude.run)
      | .error error => return (s, .error error)) := by
  unfold foldUntilRefused
  generalize hn : w.remaining = n
  induction n generalizing w s with
  | zero =>
    obtain ⟨hc, w', h⟩ | ⟨error, hc, h⟩ | ⟨e, w', -, hr, -⟩ := w.next_cases
    · rw [foldStepsUntilRefused, h, entries, hc]
      rfl
    · rw [foldStepsUntilRefused, h, entries, hc]
      rfl
    · omega
  | succ n ih =>
    obtain ⟨hc, w', h⟩ | ⟨error, hc, h⟩ | ⟨e, w', -, hr, hc, hes, h⟩ := w.next_cases
    · rw [foldStepsUntilRefused, h, entries, hc]
      rfl
    · rw [foldStepsUntilRefused, h, entries, hc]
      rfl
    · have ih := fun s => ih w' s (by omega)
      rw [foldStepsUntilRefused, h, hes, hc, Checked.foldUntilRefused, pure_bind]
      simp only [bind_assoc]
      refine bind_congr fun x => ?_
      cases x with
      | ok s => exact ih s
      | error error => rw [pure_bind]

/-- The same for a run that keeps nothing when it is refused. -/
theorem run_foldM_eq (f : σ → Entry → Checked σ) (w : Walk) (s : σ) :
    (w.foldM f s).run = (do
      let (s, outcome) ← Checked.foldUntilRefused f w.entries s
      match outcome with
      | .ok () => return (← w.contents.conclude.run).map fun () => s
      | .error error => return .error error) := by
  rw [run_foldM, foldUntilRefused_eq, map_bind]
  refine bind_congr fun (s, outcome) => ?_
  cases outcome with
  | ok u => rw [map_bind]; rfl
  | error error => rfl

/-- **A lookup finds the first entry of its kind, and meets the fault only if there is none.** -/
theorem find?_eq (p : Entry → Bool) (w : Walk) :
    w.find? p =
      match w.entries.find? p with
      | some e => pure (some e)
      | none => do
        w.contents.conclude
        return none := by
  unfold find?
  generalize hn : w.remaining = n
  induction n generalizing w with
  | zero =>
    obtain ⟨hc, w', h⟩ | ⟨error, hc, h⟩ | ⟨e, w', -, hr, -⟩ := w.next_cases
    · rw [findSteps, h, entries, hc]
      rfl
    · rw [findSteps, h, entries, hc]
      rfl
    · omega
  | succ n ih =>
    obtain ⟨hc, w', h⟩ | ⟨error, hc, h⟩ | ⟨e, w', -, hr, hc, hes, h⟩ := w.next_cases
    · rw [findSteps, h, entries, hc]
      rfl
    · rw [findSteps, h, entries, hc]
      rfl
    · rw [findSteps, h, hes, hc, List.find?_cons]
      change (if p e = true then pure (some e) else findSteps p (n + 1) w') = _
      cases hp : p e with
      | true => rfl
      | false => exact ih w' (by omega)

/-- The answers of a run. -/
theorem value_foldUntilRefused (f : σ → Entry → Checked σ) (w : Walk) (s : σ) :
    (w.foldUntilRefused f s).value =
      Answer.judgedBy w.contents.verdict
        (Answer.foldUntilRefused (fun s e => (f s e).answer) w.entries s) := by
  rw [foldUntilRefused_eq, Metered.value_bind, Checked.value_foldUntilRefused, Answer.judgedBy]
  obtain ⟨s, outcome⟩ := Answer.foldUntilRefused (fun s e => (f s e).answer) w.entries s
  cases outcome with
  | ok u => simp [Except.bind]
  | error error => rfl

end Walk

/-! ## 3. Lists of fields that are written over -/

namespace RowList

variable {r : RowList}

/-- Fields written one behind the other, from a position on. -/
def putAll : RowList → Nat → List Field → RowList
  | r, _, [] => r
  | r, i, f :: fields => (r.put i f).putAll (i + 1) fields

/-- **One step** replaces the field at its position, or adds one at the end. -/
theorem toList_put_eq {i : Nat} (hi : i ≤ r.toList.length) (f : Field) :
    (r.put i f).toList = r.toList.take i ++ f :: r.toList.drop (i + 1) := by
  rcases Nat.lt_or_eq_of_le hi with hlt | rfl
  · rw [toList_put hlt, List.set_eq_take_append_cons_drop, if_pos hlt]
  · rw [toList_put_length, List.take_length, List.drop_of_length_le (Nat.le_succ _)]

/-- **The fields written, and behind them what the list held there before.** -/
theorem toList_putAll (fields : List Field) {i : Nat} (hi : i ≤ r.toList.length) :
    (r.putAll i fields).toList =
      r.toList.take i ++ fields ++ r.toList.drop (i + fields.length) := by
  induction fields generalizing r i with
  | nil => rw [putAll, List.append_nil, List.length_nil, Nat.add_zero, List.take_append_drop]
  | cons f fields ih =>
    have hput := toList_put_eq hi f
    have hfront : (r.toList.take i ++ [f]).length = i + 1 := by
      rw [List.length_append, List.length_take_of_le hi, List.length_singleton]
    rw [List.append_cons] at hput
    have hnext : i + 1 ≤ (r.put i f).toList.length := by
      rw [hput, List.length_append, hfront]
      exact Nat.le_add_right _ _
    have hwritten : (r.put i f).toList.take (i + 1) = r.toList.take i ++ [f] := by
      rw [hput, ← hfront, List.take_left]
    have hleft : (r.put i f).toList.drop (i + 1 + fields.length) =
        r.toList.drop (i + 1 + fields.length) := by
      rw [hput, ← List.drop_drop, ← hfront, List.drop_left, hfront, List.drop_drop]
    rw [putAll, ih hnext, hwritten, hleft, ← List.append_cons, List.length_cons, Nat.add_assoc,
      Nat.add_comm 1]

/-- A run that puts entry after entry puts their fields. -/
theorem foldl_put (es : List Entry) (r : RowList) (i : Nat) :
    es.foldl (fun (s : RowList × Nat) e => (s.1.put s.2 e.field, s.2 + 1)) (r, i) =
      (r.putAll i (es.map Entry.field), i + es.length) := by
  induction es generalizing r i with
  | nil => rfl
  | cons e es ih =>
    rw [List.foldl_cons, ih, List.map_cons, List.length_cons, putAll, Nat.add_right_comm,
      Nat.add_assoc]

end RowList

/-! ## 4. Views -/

namespace View

/-- **What a view holds.** -/
def contents (v : View) : Contents := .read v.length 4 (v.bytes.drop 4)

theorem contents_walk (v : View) : v.walk.contents = v.contents := rfl

theorem entries_walk (v : View) : v.walk.entries = Record.entries 4 v.contents.fields := rfl

/-- **A run over a view goes through the fields it holds**, and then meets the fault. -/
theorem value_foldUntilRefused_walk {σ : Type} (f : σ → Field → Checked σ) (v : View) (s : σ) :
    (v.walk.foldUntilRefused (fun s e => f s e.field) s).value =
      Answer.judgedBy v.contents.verdict
        (Answer.foldUntilRefused (fun s g => (f s g).answer) v.contents.fields s) := by
  rw [Walk.value_foldUntilRefused, entries_walk, contents_walk,
    Answer.foldUntilRefused_map (fun s g => (f s g).answer), Record.map_field_entries]

/-- **A view is valid if its contents have no fault**, and otherwise refused by the fault. -/
theorem validate_eq (v : View) : v.validate = v.contents.conclude := by
  apply ExceptT.ext
  rw [validate, Walk.run_foldM_eq, contents_walk]
  rw [Checked.foldUntilRefused_pure, pure_bind]
  exact (map_congr fun outcome => by cases outcome <;> rfl).trans (id_map _)

@[simp] theorem answer_validate (v : View) : v.validate.answer = v.contents.verdict := by
  rw [validate_eq, Contents.answer_conclude]

/-- Two fields are declared, one is there, and the length of the second name is cut off. -/
example : (View.mk [2, 0, 0, 0, 1, 0, 0, 0, 97, 1, 0, 0, 0, 7, 3, 0]).contents =
    ⟨[⟨[97], [7]⟩], some (.malformed 14 .truncatedLength)⟩ := by decide

/-- The list with the fields of the view written over it. -/
def writtenOver (v : View) (out : RowList) : RowList :=
  (out.reserve v.expectedFields).putAll 0 v.contents.fields

/-- Behind the fields of the view the list is cut off. -/
theorem toList_truncate_writtenOver (v : View) (out : RowList) :
    ((v.writtenOver out).truncate v.contents.fields.length).toList = v.contents.fields := by
  rw [RowList.toList_truncate, writtenOver, RowList.toList_putAll _ (Nat.zero_le _), List.take_zero,
    List.nil_append, List.take_left]

/-- The run over the list goes through all fields of the view, and then meets the fault. -/
theorem foldUntilRefused_put (v : View) (out : RowList) :
    v.walk.foldUntilRefused (fun (s : RowList × Nat) e =>
        (pure (s.1.put s.2 e.field, s.2 + 1) : Checked (RowList × Nat)))
        (out.reserve v.expectedFields, 0) =
      (fun outcome => ((v.writtenOver out, v.contents.fields.length), outcome)) <$>
        v.contents.conclude.run := by
  rw [Walk.foldUntilRefused_eq, Checked.foldUntilRefused_pure, pure_bind, contents_walk,
    entries_walk, RowList.foldl_put, Record.map_field_entries, Record.length_entries, Nat.zero_add]
  rfl

/-- **What reading into a list leaves**: the fields written over it and nothing behind them, or
    nothing. The fault is reported where it is met. -/
theorem readInto_eq (v : View) (out : RowList) :
    v.readInto out =
      (fun outcome => (match outcome with
        | .ok () => (v.writtenOver out).truncate v.contents.fields.length
        | .error _ => (out.reserve v.expectedFields).clear, outcome)) <$>
          v.contents.conclude.run := by
  have hrun : (v.walk.foldM (fun (s : RowList × Nat) e =>
      (pure (s.1.put s.2 e.field, s.2 + 1) : Checked (RowList × Nat)))
      (out.reserve v.expectedFields, 0)).run =
        (fun outcome => outcome.map fun () => (v.writtenOver out, v.contents.fields.length)) <$>
          v.contents.conclude.run := by
    rw [Walk.run_foldM, foldUntilRefused_put, Functor.map_map]
  unfold readInto
  dsimp only
  rw [hrun, bind_map_left, map_eq_pure_bind]
  refine bind_congr fun outcome => ?_
  cases outcome <;> rfl

/-- **Reading into a list leaves exactly the fields of the view, or none**, whatever the list held
    before. -/
theorem value_readInto (v : View) (out : RowList) :
    (v.readInto out).value.2 = v.contents.verdict ∧
      (v.readInto out).value.1.toList =
        match v.contents.verdict with
        | .ok () => v.contents.fields
        | .error _ => [] := by
  rw [readInto_eq, Checked.value_map, Checked.value_run, Contents.answer_conclude]
  refine ⟨rfl, ?_⟩
  cases v.contents.verdict with
  | ok u => exact v.toList_truncate_writtenOver out
  | error error => rfl

/-- **The fields of a view are those it holds**, if it is valid. -/
theorem answer_toFields (v : View) :
    v.toFields.answer = v.contents.verdict.map fun () => v.contents.fields := by
  obtain ⟨h₂, h₁⟩ := v.value_readInto RowList.empty
  unfold toFields
  simp only [Checked.answer_liftM_bind]
  rw [h₂]
  cases hv : v.contents.verdict with
  | ok u =>
    rw [hv] at h₁
    simp [h₁, Except.map]
  | error error => rfl

/-- Looking up a name finds the first entry of that name. -/
theorem answer_locate? (v : View) (name : Bytes) :
    (v.locate? name).answer =
      match (Record.entries 4 v.contents.fields).find? fun e => e.name == name with
      | some e => .ok (some e)
      | none => v.contents.verdict.map fun () => none := by
  rw [locate?, Walk.find?_eq, entries_walk, contents_walk]
  cases (Record.entries 4 v.contents.fields).find? fun e => e.name == name with
  | some e => rfl
  | none =>
    simp only [Checked.answer_bind, Contents.answer_conclude]
    cases v.contents.verdict <;> rfl

end View

end FieldRecords
