import FieldRecords.Record.Field

/-!
# Laying fields over fields

What merging an update into a row means, on lists of fields: every field of the update, from the
first to the last, gives its value to the first field of the row that has its name, or goes to
the end of the row if no field has it.
-/

namespace FieldRecords

namespace Record

/-- One field laid over a row: **the first field of that name takes the value, or the field goes
    to the end.** -/
def put (row : List Field) (f : Field) : List Field :=
  match row with
  | [] => [f]
  | g :: row => if g.name = f.name then ⟨g.name, f.value⟩ :: row else g :: put row f

/-- All fields of `update` laid over `row`, one after the other. -/
def overlay (row update : List Field) : List Field :=
  update.foldl put row

/-- The value of the first field of that name. -/
def lookup? (row : List Field) (name : Bytes) : Option Bytes :=
  (row.find? fun f => f.name == name).map Field.value

@[simp] theorem lookup?_nil (name : Bytes) : lookup? [] name = none := rfl

theorem lookup?_cons (f : Field) (row : List Field) (name : Bytes) :
    lookup? (f :: row) name = if f.name = name then some f.value else lookup? row name := by
  by_cases h : f.name = name <;> simp [lookup?, h]

/-- The name that was put has the new value, and every other name the value it had. -/
theorem lookup?_put (row : List Field) (f : Field) (name : Bytes) :
    lookup? (put row f) name = if name = f.name then some f.value else lookup? row name := by
  induction row with
  | nil =>
    by_cases h : f.name = name
    · simp [put, lookup?, h]
    · simp [put, lookup?, h, Ne.symm h]
  | cons g row ih =>
    unfold put
    split
    · rename_i hg
      by_cases h : name = f.name
      · simp [lookup?, h, hg]
      · have hg' : ¬ g.name = name := fun e => h (e ▸ hg)
        simp [lookup?, h, hg']
    · rename_i hg
      by_cases hn : g.name = name
      · have h : ¬ name = f.name := fun e => hg (hn.trans e)
        simp [lookup?, hn, h]
      · simp only [lookup?, List.find?_cons, beq_eq_false_iff_ne.2 hn] at ih ⊢
        exact ih

@[simp] theorem overlay_nil (row : List Field) : overlay row [] = row := rfl

@[simp] theorem overlay_cons (row : List Field) (f : Field) (update : List Field) :
    overlay row (f :: update) = overlay (put row f) update := rfl

/-- Laying one update over another's result is laying both over, one behind the other. -/
theorem overlay_append (row u₁ u₂ : List Field) :
    overlay row (u₁ ++ u₂) = overlay (overlay row u₁) u₂ :=
  List.foldl_append

end Record

end FieldRecords
