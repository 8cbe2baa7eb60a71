import FieldRecords.Document.Basic
import FieldRecords.Toml.Lexical

/-!
# TOML: numbers and points in time

Whole numbers have 64 bits with a sign; floats have a fraction, an exponent or both, and overflow
is refused upwards but not downwards. An underscore may stand between two digits. Points in time
are a date, a time of day, or a date and a time with or without an offset; they are checked
against the calendar and kept only as what they are.
-/

namespace FieldRecords

namespace Toml

/-! ## 1. Points in time -/

/-- A number of exactly so many digits, up to `most`. -/
def fixedDigits? (count most : Nat) (cs : List Char) : Read Nat :=
  let digits := cs.take count
  let n := digitsValue 10 digits
  if digits.length = count && digits.all Char.isDigit && n ≤ most then some (n, cs.drop count)
  else none

/-- What is left after a given character. -/
def expect? (c : Char) : List Char → Option (List Char)
  | d :: cs => if d = c then some cs else none
  | [] => none

/-- How many days a month has. -/
def daysIn (year month : Nat) : Nat :=
  match month with
  | 2 => if year % 4 = 0 ∧ (year % 100 ≠ 0 ∨ year % 400 = 0) then 29 else 28
  | 4 | 6 | 9 | 11 => 30
  | _ => 31

/-- What is left after a date. -/
def date? (cs : List Char) : Option (List Char) := do
  let (year, cs) ← fixedDigits? 4 9999 cs
  let cs ← expect? '-' cs
  let (month, cs) ← fixedDigits? 2 12 cs
  let cs ← expect? '-' cs
  let (day, cs) ← fixedDigits? 2 31 cs
  if 1 ≤ month ∧ 1 ≤ day ∧ day ≤ daysIn year month then some cs else none

/-- What is left after a time of day. A second may be a leap second. -/
def timeOfDay? (cs : List Char) : Option (List Char) := do
  let (_, cs) ← fixedDigits? 2 23 cs
  let cs ← expect? ':' cs
  let (_, cs) ← fixedDigits? 2 59 cs
  let cs ← expect? ':' cs
  let (_, cs) ← fixedDigits? 2 60 cs
  match cs with
  | '.' :: fraction =>
    match fraction.takeWhile Char.isDigit with
    | [] => some cs
    | _ => some (fraction.dropWhile Char.isDigit)
  | cs => some cs

/-- What is left after an offset from universal time, which may be missing. -/
def offset? (cs : List Char) : Option (List Char) := do
  match cs with
  | 'Z' :: cs | 'z' :: cs => some cs
  | '+' :: cs | '-' :: cs =>
    let (_, cs) ← fixedDigits? 2 23 cs
    let cs ← expect? ':' cs
    let (_, cs) ← fixedDigits? 2 59 cs
    some cs
  | cs => some cs

/-- What is left after a point in time. -/
def pointInTime? (cs : List Char) : Option (List Char) :=
  match date? cs with
  | none => timeOfDay? cs
  | some rest =>
    match rest with
    | c :: afterMark =>
      if c = 'T' || c = 't' || c = ' ' then
        match timeOfDay? afterMark with
        | some rest => offset? rest
        | none => some rest
      else some rest
    | [] => some []

/-! ## 2. Numbers -/

/-- Further digits, each of which may have an underscore before it, after those `read`, the last
    one first. -/
def moreDigits? (isDigit : Char → Bool) : List Char → List Char → Read (List Char)
  | read, '_' :: c :: cs => if isDigit c then moreDigits? isDigit (c :: read) cs else none
  | read, c :: cs =>
    if isDigit c then moreDigits? isDigit (c :: read) cs else some (read.reverse, c :: cs)
  | read, [] => some (read.reverse, [])

/-- Digits, with underscores between them. -/
def digitRun? (isDigit : Char → Bool) : List Char → Read (List Char)
  | c :: cs => if isDigit c then moreDigits? isDigit [c] cs else none
  | [] => none

/-- A whole number in another base, after its mark. -/
def based? (base : Nat) (isDigit : Char → Bool) (cs : List Char) : Read Document :=
  match digitRun? isDigit cs with
  | some (digits, cs) =>
    let n := digitsValueUpTo 18446744073709551616 base digits
    if n < 9223372036854775808 then some (.integer n, cs) else none
  | none => none

/-- The digits of a decimal whole number: a zero, or digits that do not start with a zero. -/
def wholeDigits? : List Char → Read (List Char)
  | '0' :: cs => some (['0'], cs)
  | cs => digitRun? Char.isDigit cs

/-- The number that the digits of an exponent stand for. Digits count only until 65536 is reached;
    from there on a number without a long row of zeros is beyond all floats anyway. -/
def exponentValue (digits : List Char) : Nat :=
  digits.foldl (fun n c => if n < 65536 then 10 * n + digitValue c else n) 0

/-- An exponent, after its `e`. -/
def exponent? (cs : List Char) : Read Int :=
  let (negative, cs) := match cs with
    | '-' :: cs => (true, cs)
    | '+' :: cs => (false, cs)
    | cs => (false, cs)
  (digitRun? Char.isDigit cs).map fun (digits, cs) =>
    let n : Int := exponentValue digits
    (if negative then -n else n, cs)

/-- A float of these parts, unless it is too large. -/
def float? (negative : Bool) (whole fraction : List Char) (exponent : Int) : Option Document :=
  let x := Decimal.toFloatSigned negative
    (Decimal.ofDigits (whole ++ fraction) (exponent - fraction.length))
  if x == 1.0 / 0.0 then none else some (.float x)

/-- A decimal number, after its sign. -/
def decimal? (negative : Bool) (cs : List Char) : Option (Document × List Char) := do
  let (whole, cs) ← wholeDigits? cs
  match cs with
  | '.' :: cs =>
    let (fraction, cs) ← digitRun? Char.isDigit cs
    let (exponent, cs) ← match cs with
      | 'e' :: cs | 'E' :: cs => exponent? cs
      | cs => some (0, cs)
    some (← float? negative whole fraction exponent, cs)
  | 'e' :: cs | 'E' :: cs =>
    let (exponent, cs) ← exponent? cs
    some (← float? negative whole [] exponent, cs)
  | cs =>
    let n : Int := digitsValueUpTo 18446744073709551616 10 whole
    let n := if negative then -n else n
    if -9223372036854775808 ≤ n ∧ n < 9223372036854775808 then some (.integer n, cs) else none

/-- A number after its sign: one with digits, `inf` or `nan`. -/
def signed? (negative : Bool) : List Char → Read Document
  | 'i' :: 'n' :: 'f' :: cs => some (.float (if negative then -1.0 / 0.0 else 1.0 / 0.0), cs)
  | 'n' :: 'a' :: 'n' :: cs => some (.float (0.0 / 0.0), cs)
  | cs => decimal? negative cs

/-- **A number or a point in time.** -/
def number? (cs : List Char) : Read Document :=
  match pointInTime? cs with
  | some rest => some (.time, rest)
  | none =>
    match cs with
    | '0' :: 'x' :: cs => based? 16 isHex cs
    | '0' :: 'o' :: cs => based? 8 (fun c => '0' ≤ c && c ≤ '7') cs
    | '0' :: 'b' :: cs => based? 2 (fun c => c == '0' || c == '1') cs
    | '+' :: cs => signed? false cs
    | '-' :: cs => signed? true cs
    | cs => signed? false cs

end Toml

end FieldRecords
