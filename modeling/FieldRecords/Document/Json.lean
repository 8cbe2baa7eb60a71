import FieldRecords.Decimal.Layout
import FieldRecords.Decimal.Scaled
import FieldRecords.Document.Basic

/-!
# Documents as JSON

`Document.ofJson?` reads a JSON text and `Document.toJson` writes one. A number with neither a
point nor an exponent is a whole number if it fits 64 bits, with or without a sign; all others are
floats, read by scaling (`Decimal.scaled?`). Of entries of one name the last one counts. A float
that is no number is written as `null`.
-/

namespace FieldRecords

namespace Document

namespace Json

/-! ## 1. Characters, texts and numbers -/

/-- What is left after blanks. -/
def skipBlanks (cs : List Char) : List Char :=
  cs.dropWhile fun c => c == ' ' || c == '\t' || c == '\n' || c == '\r'

/-- The number that four hexadecimal digits stand for. -/
def hex4? : List Char → Option (Nat × List Char)
  | a :: b :: c :: d :: cs =>
    let digits := [a, b, c, d]
    if digits.all fun c => c.isDigit || ('a' ≤ c && c ≤ 'f') || ('A' ≤ c && c ≤ 'F') then
      some (digitsValue 16 digits, cs)
    else none
  | _ => none

/-- The character of a `\u` escape; two escapes make one character beyond the first plane. -/
def unicodeEscape? (cs : List Char) : Option (Char × List Char) := do
  let (n, cs) ← hex4? cs
  if 0xD800 ≤ n ∧ n < 0xDC00 then
    match cs with
    | '\\' :: 'u' :: cs =>
      let (m, cs) ← hex4? cs
      if 0xDC00 ≤ m ∧ m < 0xE000 then
        some (Char.ofNat (0x10000 + (n - 0xD800) * 0x400 + (m - 0xDC00)), cs)
      else none
    | _ => none
  else if 0xDC00 ≤ n ∧ n < 0xE000 then none
  else some (Char.ofNat n, cs)

/-- The characters of a text up to the closing quote; `steps` bounds how many there can be. -/
def textChars? : Nat → List Char → Option (List Char × List Char)
  | 0, _ => none
  | _ + 1, [] => none
  | steps + 1, c :: cs =>
    if c = '"' then some ([], cs)
    else if c = '\\' then
      let escaped : Option (Char × List Char) := match cs with
        | '"' :: cs => some ('"', cs)
        | '\\' :: cs => some ('\\', cs)
        | '/' :: cs => some ('/', cs)
        | 'b' :: cs => some ('\x08', cs)
        | 'f' :: cs => some ('\x0c', cs)
        | 'n' :: cs => some ('\n', cs)
        | 'r' :: cs => some ('\r', cs)
        | 't' :: cs => some ('\t', cs)
        | 'u' :: cs => unicodeEscape? cs
        | _ => none
      match escaped with
      | some (e, cs) => (textChars? steps cs).map fun (rest, cs) => (e :: rest, cs)
      | none => none
    else if c.toNat < 0x20 then none
    else (textChars? steps cs).map fun (rest, cs) => (c :: rest, cs)

/-- A text, after its opening quote; `steps` bounds how many characters it can have. -/
def text? (steps : Nat) (cs : List Char) : Option (String × List Char) :=
  (textChars? steps cs).map fun (found, cs) => (String.ofList found, cs)

/-- The exponent of a number, after its `e`. -/
def exponent? (cs : List Char) : Option (Int × List Char) :=
  let (negative, cs) := match cs with
    | '-' :: cs => (true, cs)
    | '+' :: cs => (false, cs)
    | cs => (false, cs)
  match cs.takeWhile Char.isDigit with
  | [] => none
  | digits =>
    let n : Int := digitsValueUpTo 18446744073709551616 10 digits
    some (if negative then -n else n, cs.dropWhile Char.isDigit)

/-- A number, after its sign. -/
def number? (negative : Bool) (cs : List Char) : Option (Document × List Char) := do
  let whole := cs.takeWhile Char.isDigit
  let cs := cs.dropWhile Char.isDigit
  if whole.isEmpty || (whole.head? == some '0' && whole.length != 1) then none
  let (fraction, cs) ← match cs with
    | '.' :: cs =>
      match cs.takeWhile Char.isDigit with
      | [] => none
      | digits => some (some digits, cs.dropWhile Char.isDigit)
    | cs => some (none, cs)
  let (exponent, cs) ← match cs with
    | 'e' :: cs | 'E' :: cs => (exponent? cs).map fun (n, cs) => (some n, cs)
    | cs => some (none, cs)
  let digits := digitsValueUpTo 18446744073709551616 10 whole
  let signed : Int := if negative then -digits else digits
  if fraction.isNone && exponent.isNone && -9223372036854775808 ≤ signed &&
      signed < 18446744073709551616 && !(negative && digits == 0) then
    some (.integer signed, cs)
  else
    let x ← (Decimal.ofLeadingDigits whole (fraction.getD []) (exponent.getD 0)).scaled?
    some (.float (if negative then -x else x), cs)

/-! ## 2. Values -/

mutual

/-- A value; `steps` bounds how deep and how long it can be. -/
def value? : Nat → List Char → Option (Document × List Char)
  | 0, _ => none
  | steps + 1, cs =>
    match skipBlanks cs with
    | 'n' :: 'u' :: 'l' :: 'l' :: cs => some (.null, cs)
    | 't' :: 'r' :: 'u' :: 'e' :: cs => some (.bool true, cs)
    | 'f' :: 'a' :: 'l' :: 's' :: 'e' :: cs => some (.bool false, cs)
    | '"' :: cs => (text? steps cs).map fun (s, cs) => (.text s, cs)
    | '[' :: cs =>
      match skipBlanks cs with
      | ']' :: cs => some (.list [], cs)
      | cs => (items? steps cs).map fun (items, cs) => (.list items, cs)
    | '{' :: cs =>
      match skipBlanks cs with
      | '}' :: cs => some (.table [], cs)
      | cs => (entries? steps cs).map fun (entries, cs) => (.table entries, cs)
    | '-' :: cs => number? true cs
    | cs => number? false cs

/-- The items of a list, up to its end. -/
def items? : Nat → List Char → Option (List Document × List Char)
  | 0, _ => none
  | steps + 1, cs => do
    let (item, cs) ← value? steps cs
    match skipBlanks cs with
    | ',' :: cs =>
      let (items, cs) ← items? steps cs
      some (item :: items, cs)
    | ']' :: cs => some ([item], cs)
    | _ => none

/-- The entries of a table, up to its end. -/
def entries? : Nat → List Char → Option (List (String × Document) × List Char)
  | 0, _ => none
  | steps + 1, cs => do
    match skipBlanks cs with
    | '"' :: cs =>
      let (name, cs) ← text? steps cs
      match skipBlanks cs with
      | ':' :: cs =>
        let (value, cs) ← value? steps cs
        match skipBlanks cs with
        | ',' :: cs =>
          let (entries, cs) ← entries? steps cs
          if entries.any fun entry => entry.1 == name then some (entries, cs)
          else some ((name, value) :: entries, cs)
        | '}' :: cs => some ([(name, value)], cs)
        | _ => none
      | _ => none
    | _ => none

end

/-! ## 3. Writing -/

/-- A hexadecimal digit. -/
def hexDigit (n : Nat) : Char := "0123456789abcdef".toList.getD (n % 16) '0'

/-- A character inside a text. -/
def escape (c : Char) : List Char :=
  if c = '"' then ['\\', '"']
  else if c = '\\' then ['\\', '\\']
  else if c.toNat < 0x20 then
    ['\\', 'u', '0', '0', hexDigit (c.toNat / 16), hexDigit c.toNat]
  else [c]

/-- A text in quotes. -/
def quoted (s : String) : String := "\"" ++ String.ofList (s.toList.flatMap escape) ++ "\""

/-- Floats in JSON are written out from the fifth place behind the point on. -/
def floatFormat : FloatFormat := ⟨-5, .even⟩

end Json

/-- **The document that a JSON text writes.** -/
def ofJson? (s : String) : Option Document := do
  let cs := s.toList
  let (d, rest) ← Json.value? (2 * cs.length + 2) cs
  if (Json.skipBlanks rest).isEmpty then some d else none

mutual

/-- **A JSON text of the document.** -/
def toJson : Document → String
  | null => "null"
  | bool b => if b then "true" else "false"
  | integer n => toString n
  | float x => if x.isFinite then floatText Json.floatFormat x else "null"
  | text s => Json.quoted s
  | time => "null"
  | list items => "[" ++ ",".intercalate (itemTexts items) ++ "]"
  | table entries => "\x7b" ++ ",".intercalate (entryTexts entries) ++ "\x7d"

def itemTexts : List Document → List String
  | [] => []
  | d :: ds => d.toJson :: itemTexts ds

def entryTexts : List (String × Document) → List String
  | [] => []
  | (name, d) :: entries => (Json.quoted name ++ ":" ++ d.toJson) :: entryTexts entries

end

end Document

end FieldRecords
