import FieldRecords.Toml.Number
import FieldRecords.Toml.Tree

/-!
# TOML: values and documents

A value is a text, a number, a truth value, a point in time, a list in brackets or a table in
braces. Lists may span lines and end in a comma; tables in braces do neither. A document is a
sequence of lines: an entry, the header of a table, the header of one more table of a list, or
nothing but a comment (`Document.ofToml?`).
-/

namespace FieldRecords

namespace Toml

/-! ## 1. Values -/

mutual

/-- A value at a nesting depth; `steps` bounds how long it can be. -/
def value? (depth : Nat) : Nat → List Char → Option (Document × List Char)
  | 0, _ => none
  | steps + 1, cs =>
    match cs with
    | '"' :: _ | '\'' :: _ => (text? steps cs).map fun (s, cs) => (.text s, cs)
    | '[' :: cs =>
      if depth + 1 < depthLimit then
        match cs with
        | ']' :: cs => some (.list [], cs)
        | cs => (items? (depth + 1) steps [] cs).map fun (items, cs) => (.list items, cs)
      else none
    | '{' :: cs =>
      if depth + 1 < depthLimit then
        match skipBlanks cs with
        | '}' :: cs => some (.table [], cs)
        | cs => do
          let (entries, cs) ← entries? (depth + 1) steps [] cs
          some (← inlineTable? entries, cs)
      else none
    | 't' :: 'r' :: 'u' :: 'e' :: cs => some (.bool true, cs)
    | 'f' :: 'a' :: 'l' :: 's' :: 'e' :: cs => some (.bool false, cs)
    | cs => number? cs

/-- The items of a list up to its end, after those `read`, the last one first. -/
def items? (depth : Nat) : Nat → List Document → List Char → Option (List Document × List Char)
  | 0, _, _ => none
  | steps + 1, read, cs =>
    match skipLines steps cs with
    | ']' :: cs => some (read.reverse, cs)
    | cs => do
      let (item, cs) ← value? depth steps cs
      match skipLines steps cs with
      | ',' :: cs => items? depth steps (item :: read) cs
      | ']' :: cs => some ((item :: read).reverse, cs)
      | _ => none

/-- The entries of a table in braces up to its end, after those `read`, the last one first. -/
def entries? (depth : Nat) : Nat → List ((List String × String) × Document) → List Char →
    Option (List ((List String × String) × Document) × List Char)
  | 0, _, _ => none
  | steps + 1, read, cs => do
    let (key, cs) ← key? steps cs
    let cs ← expect? '=' cs
    let (value, cs) ← value? depth steps (skipBlanks cs)
    match skipBlanks cs with
    | ',' :: cs => entries? depth steps ((key, value) :: read) cs
    | '}' :: cs => some (((key, value) :: read).reverse, cs)
    | _ => none

end

/-! ## 2. Lines -/

/-- A header or an entry, with the end of its line. -/
def statement? (steps : Nat) : List Char → Option (Statement × List Char)
  | '[' :: '[' :: cs => do
    let ((way, name), cs) ← key? steps cs
    let cs ← expect? ']' cs
    let cs ← expect? ']' cs
    some (.listTable way name, ← finishLine? cs)
  | '[' :: cs => do
    let ((way, name), cs) ← key? steps cs
    let cs ← expect? ']' cs
    some (.table way name, ← finishLine? cs)
  | cs => do
    let ((way, name), cs) ← key? steps cs
    let cs ← expect? '=' cs
    let (value, cs) ← value? 0 steps (skipBlanks cs)
    some (.value way name value, ← finishLine? cs)

/-- All lines that say something, after those `read`, the last one first. -/
def statements? : Nat → List Statement → List Char → Option (List Statement)
  | 0, _, _ => none
  | steps + 1, read, cs =>
    match skipLines steps cs with
    | [] => some read.reverse
    | cs => do
      let (statement, cs) ← statement? steps cs
      statements? steps (statement :: read) cs

end Toml

/-- **The document that a TOML text writes.** A byte-order mark in front is passed over. -/
def Document.ofToml? (s : String) : Option Document := do
  let cs := match s.toList with
    | '\uFEFF' :: cs => cs
    | cs => cs
  Toml.build? (← Toml.statements? (2 * cs.length + 2) [] cs)

end FieldRecords
