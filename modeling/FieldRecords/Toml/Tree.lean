import FieldRecords.Document.Basic

/-!
# TOML: tables

The lines of a TOML document build one tree of tables. A table comes into being in one of three
ways, and that decides who may still add to it (`Table`):

* written out, by a header or in braces: its own lines alone;
* on the way of a header, as `a` of `[a.b]`: later a header of its own, once;
* on the way of a dotted key, as `a` of `a.b = 1`: further dotted keys of the same table.

A list of tables is added to by its own headers, and everything below it goes into its last table.
No name is given twice.
-/

namespace FieldRecords

namespace Toml

/-- Entries in the order in which they came, and how the table came into being. -/
structure Table (ν : Type) where
  /-- Nobody has written the table out yet. -/
  implicit : Bool
  /-- The table came with a dotted key. -/
  dotted : Bool
  entries : List (String × ν)

/-- What a name stands for while the tree is built. -/
inductive Node where
  | leaf (value : Document)
  | table (t : Table Node)
  /-- A list of tables, the last one first. -/
  | tables (ts : List (Table Node))

namespace Table

variable {ν : Type}

/-- A table that is written out. -/
def explicit : Table ν := ⟨false, false, []⟩

def find? (t : Table ν) (name : String) : Option ν :=
  (t.entries.find? fun entry => entry.1 == name).map Prod.snd

/-- Sets a name, which keeps its place if it has one. -/
def set (t : Table ν) (name : String) (value : ν) : Table ν :=
  { t with entries :=
    if t.entries.any fun entry => entry.1 == name then
      t.entries.map fun entry => if entry.1 == name then (name, value) else entry
    else
      t.entries ++ [(name, value)] }

def erase (t : Table ν) (name : String) : Table ν :=
  { t with entries := t.entries.filter fun entry => entry.1 != name }

/-- **Changes the table at the end of a way.** Tables that are missing on the way come into
    being; with `dotted`, the way may only lead through tables that nobody has written out. -/
def changeAt? (dotted : Bool) (change : Table Node → Option (Table Node)) :
    List String → Table Node → Option (Table Node)
  | [], t => change t
  | name :: way, t =>
    match t.find? name with
    | none =>
      (changeAt? dotted change way ⟨true, dotted, []⟩).map fun child => t.set name (.table child)
    | some (.leaf _) => none
    | some (.table child) =>
      if dotted && !child.implicit then none
      else (changeAt? dotted change way child).map fun child => t.set name (.table child)
    | some (.tables []) => none
    | some (.tables (last :: before)) =>
      (changeAt? dotted change way last).map fun last => t.set name (.tables (last :: before))

/-- Adds `way.name = value`. A table that came with dotted keys takes nothing but dotted keys, and
    every other table nothing but plain ones. -/
def addValue? (way : List String) (name : String) (value : Document) (t : Table Node) :
    Option (Table Node) :=
  let add (t : Table Node) : Option (Table Node) :=
    if t.dotted == way.isEmpty then none
    else if (t.find? name).isSome then none
    else some (t.set name (.leaf value))
  changeAt? true add way t

end Table

/-! ## 2. From tables to documents -/

mutual

/-- The document of a node. -/
def Node.toDocument : Node → Document
  | .leaf value => value
  | .table t => .table (Node.entryDocuments t.entries)
  | .tables ts => .list (Node.tableDocuments ts).reverse

def Node.entryDocuments : List (String × Node) → List (String × Document)
  | [] => []
  | (name, node) :: entries => (name, node.toDocument) :: Node.entryDocuments entries

def Node.tableDocuments : List (Table Node) → List Document
  | [] => []
  | t :: ts => .table (Node.entryDocuments t.entries) :: Node.tableDocuments ts

end

/-- **The document of a table that is built.** -/
def Table.toDocument (t : Table Node) : Document := .table (Node.entryDocuments t.entries)

/-- The document of a table in braces, from its entries in order. -/
def inlineTable? (entries : List ((List String × String) × Document)) : Option Document :=
  let add (t : Table Node) (entry : (List String × String) × Document) : Option (Table Node) :=
    t.addValue? entry.1.1 entry.1.2 entry.2
  (entries.foldlM add Table.explicit).map Table.toDocument

/-! ## 3. The lines of a document -/

/-- What a line of a document says. -/
inductive Statement where
  | value (way : List String) (name : String) (value : Document)
  /-- The header of a table. -/
  | table (way : List String) (name : String)
  /-- The header of one more table of a list. -/
  | listTable (way : List String) (name : String)

/-- What is built so far: the closed tables, the table whose lines are being read, and where it
    belongs once it is closed; `none` before the first header. -/
structure Builder where
  root : Table Node
  current : Table Node
  place : Option (List String × String × Bool)

namespace Builder

def start : Builder := ⟨Table.explicit, Table.explicit, none⟩

/-- Puts the table that was read into its place: as a table of its own, or at the end of a list of
    tables. -/
def close? (b : Builder) : Option (Table Node) :=
  match b.place with
  | none => some b.current
  | some (way, name, inList) =>
    Table.changeAt? false (fun parent =>
      match parent.find? name, inList with
      | none, true => some (parent.set name (.tables [b.current]))
      | some (.tables ts), true => some (parent.set name (.tables (b.current :: ts)))
      | none, false => some (parent.set name (.table b.current))
      | some (.table t), false =>
        if t.implicit then some (parent.set name (.table b.current)) else none
      | _, _ => none) way b.root

/-- Opens a table for its header. A table that was only on the way of other headers is taken up
    with what it has. -/
def openTable? (root : Table Node) (way : List String) (name : String) : Option Builder := do
  let parent ← parentOf? root way
  match parent.find? name with
  | none => some ⟨root, Table.explicit, some (way, name, false)⟩
  | some (.table t) =>
    if t.implicit && !t.dotted then
      let root ← Table.changeAt? false (fun parent => some (parent.erase name)) way root
      some ⟨root, { t with implicit := false }, some (way, name, false)⟩
    else none
  | some _ => none
where
  /-- The table that a way leads to, empty if there is none yet. -/
  parentOf? : Table Node → List String → Option (Table Node)
    | t, [] => some t
    | t, name :: way =>
      match t.find? name with
      | none => some ⟨true, false, []⟩
      | some (.leaf _) => none
      | some (.table child) => parentOf? child way
      | some (.tables []) => none
      | some (.tables (last :: _)) => parentOf? last way

/-- Opens one more table of a list. -/
def openListTable? (root : Table Node) (way : List String) (name : String) : Option Builder := do
  let parent ← openTable?.parentOf? root way
  match parent.find? name with
  | none | some (.tables _) => some ⟨root, Table.explicit, some (way, name, true)⟩
  | some _ => none

/-- **One line more.** A header closes the table before it. -/
def add? (b : Builder) : Statement → Option Builder
  | .value way name value =>
    (b.current.addValue? way name value).map fun current => { b with current }
  | .table way name => do openTable? (← b.close?) way name
  | .listTable way name => do openListTable? (← b.close?) way name

end Builder

/-- **The document that lines build**, if they fit together. -/
def build? (statements : List Statement) : Option Document := do
  let b ← statements.foldlM Builder.add? Builder.start
  return (← b.close?).toDocument

end Toml

end FieldRecords
