import FieldRecords.Decimal.Shortest

/-!
# How a float is written

A float is written with the fewest digits that read back. Numbers whose leading digit is neither
behind the format's least place (`FloatFormat`) nor before the place 10^15 are written out, whole
ones with `.0`; others are written with one digit before the point and an exponent.
-/

namespace FieldRecords

/-- What the formats of floats differ in. -/
structure FloatFormat where
  /-- The exponent of the smallest leading digit with which a number is written out. -/
  least : Int
  tie : Tie

namespace Decimal

/-- The digits of a positive number without trailing zeros, and the exponent of the leading
    digit. -/
def leading (d : Decimal) : List Char × Int :=
  let all := Nat.toDigits 10 d.digits
  let digits := (all.reverse.dropWhile (· == '0')).reverse
  (digits, d.exponent + (all.length - 1 : Nat))

/-- Written out: the point stands after the digit at place zero. -/
def writtenOut (digits : List Char) (lead : Int) : List Char :=
  if lead < 0 then
    '0' :: '.' :: (List.replicate ((-lead).toNat - 1) '0' ++ digits)
  else
    let whole := lead.toNat + 1
    let front := digits.take whole ++ List.replicate (whole - digits.length) '0'
    let back := digits.drop whole
    front ++ '.' :: (if back.isEmpty then ['0'] else back)

/-- With an exponent: one digit before the point, and no point if it is the only one. -/
def withExponent (digits : List Char) (lead : Int) : List Char :=
  let mantissa := match digits with
    | first :: second :: rest => first :: '.' :: second :: rest
    | digits => digits
  mantissa ++ 'e' :: (toString lead).toList

/-- A positive number in one of the two ways. -/
def layout (least : Int) (d : Decimal) : List Char :=
  let (digits, lead) := d.leading
  if least ≤ lead ∧ lead < 16 then writtenOut digits lead else withExponent digits lead

end Decimal

/-- **The text of a float** in a format. Zero keeps its sign. -/
def floatText (format : FloatFormat) (x : Float) : String :=
  let bits := x.toBits
  let sign := if bits < 0x8000000000000000 then "" else "-"
  match Binary.ofBits? bits with
  | none => if x.isNaN then "NaN" else sign ++ "inf"
  | some b =>
    if b.significand = 0 then sign ++ "0.0"
    else sign ++ String.ofList ((Decimal.shortest format.tie b).layout format.least)

end FieldRecords
