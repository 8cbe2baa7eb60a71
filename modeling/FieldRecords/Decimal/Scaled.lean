import FieldRecords.Decimal.Nearest

/-!
# Reading a decimal number by scaling

The quick way to read a decimal number: its leading digits, as many as 64 bits hold
(`Decimal.ofLeadingDigits`), are rounded to a float, and that float is scaled by a power of ten
(`Decimal.scaled?`). Each of the two steps rounds, so the answer is near the number but not always
nearest to it: 0.9999999999999999 is read as 1. A number above the range of floats is refused, and
one below it is zero.
-/

namespace FieldRecords

namespace Decimal

/-! ## 1. Leading digits -/

/-- Writes digits after a number while it stays below 2^64: the number, and the digits that are
    left. -/
def extend (n : Nat) : List Char → Nat × List Char
  | [] => (n, [])
  | c :: cs =>
    let longer := 10 * n + digitValue c
    if longer < 18446744073709551616 then extend longer cs else (n, c :: cs)

/-- **The leading digits** of a number written with a whole part, a fraction and an exponent.
    Digits of the whole part that do not fit only raise the exponent, and the fraction is tried
    again after them; digits of the fraction that do not fit are passed over. -/
def ofLeadingDigits (whole fraction : List Char) (exponent : Int) : Decimal :=
  let (n, left) := extend 0 whole
  let (n, unused) := extend n fraction
  ⟨n, exponent + left.length - (fraction.length - unused.length)⟩

/-! ## 2. Scaling -/

/-- A power of ten, up to the 308th. -/
def tenToThe (k : Nat) : Float := Float.ofScientific 1 false k

/-- A float times a power of ten. Upwards there is one step, downwards as many as it takes. -/
def scale? (x : Float) (exponent : Int) : Option Float :=
  if x == 0 then some x
  else if 308 < exponent then none
  else if 0 ≤ exponent then
    let product := x * tenToThe exponent.toNat
    if product.isInf then none else some product
  else if -308 ≤ exponent then some (x / tenToThe (-exponent).toNat)
  else scale? (x / tenToThe 308) (exponent + 308)
termination_by (-exponent).toNat

/-- **The float near a number** whose digits fit 64 bits; `none` if it is too large. -/
def scaled? (d : Decimal) : Option Float := scale? d.digits.toUInt64.toFloat d.exponent

end Decimal

end FieldRecords
