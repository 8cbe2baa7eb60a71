import FieldRecords.Decimal.Shortest

/-!
# Reading a decimal number as a float

A decimal number is read as the nearest float. Numbers far beyond the range of floats are settled
by their size alone, and digits far behind the first one count only together, so that neither a
long exponent nor a long row of digits costs a long computation.
-/

namespace FieldRecords

/-! ## 1. Digits -/

/-- The value of a digit, in bases up to sixteen. A character that is no digit counts as zero. -/
def digitValue (c : Char) : Nat :=
  if c.isDigit then c.toNat - 48
  else if 'a' ≤ c ∧ c ≤ 'f' then c.toNat - 87
  else if 'A' ≤ c ∧ c ≤ 'F' then c.toNat - 55
  else 0

/-- The number that digits stand for. -/
def digitsValue (base : Nat) (digits : List Char) : Nat :=
  digits.foldl (fun n c => base * n + digitValue c) 0

/-- The number that digits stand for, or `bound` if it is larger. -/
def digitsValueUpTo (bound base : Nat) (digits : List Char) : Nat :=
  digits.foldl (fun n c => min bound (base * n + digitValue c)) 0

namespace Decimal

/-! ## 2. Floats -/

/-- The number that digits stand for, times a power of ten. A point half-way between two floats
    has less than 800 digits, so of what follows the first 800 it matters only whether it is
    zero. -/
def ofDigits (digits : List Char) (exponent : Int) : Decimal :=
  let digits := digits.dropWhile (· == '0')
  match digits.drop 800 with
  | [] => ⟨digitsValue 10 digits, exponent⟩
  | rest =>
    ⟨10 * digitsValue 10 (digits.take 800) + (if rest.all (· == '0') then 0 else 1),
      exponent + rest.length - 1⟩

/-- **The nearest float** to a number that is not negative. -/
def toFloat (d : Decimal) : Float :=
  if d.digits = 0 then 0
  else
    let lead := d.exponent + digitCount d.digits
    if 400 < lead then 1.0 / 0.0
    else if lead < -400 then 0
    else if d.exponent < 0 then Float.ofScientific d.digits true (-d.exponent).toNat
    else Float.ofScientific d.digits false d.exponent.toNat

/-- The nearest float to a number with a sign; zero keeps the sign. -/
def toFloatSigned (negative : Bool) (d : Decimal) : Float :=
  if negative then -d.toFloat else d.toFloat

end Decimal

end FieldRecords
