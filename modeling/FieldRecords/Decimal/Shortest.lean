/-!
# The fewest digits that read back

A floating-point number stands for all reals that round to it. Of the decimal numbers among them
one has the fewest digits and, of those, is nearest: that is how the number is written. Two can be
equally near; which of them is taken is up to the format (`Tie`).

A finite positive number is m · 2^q with m below 2^53 (`Binary`). The reals that round to it form
an interval whose ends lie half a step away, and belong to it if m is even. For one digit, two
digits, and so on up to seventeen, the two neighbours of the number on the grid of that many
digits are tried (`onGrid?`); if any number of the grid lies in the interval, one of these two
does. All of it is exact arithmetic on natural numbers.
-/

namespace FieldRecords

/-- The number `significand · 2^exponent`, `significand` below 2^53. -/
structure Binary where
  significand : Nat
  exponent : Int
deriving DecidableEq

/-- The number `digits · 10^exponent`. -/
structure Decimal where
  digits : Nat
  exponent : Int
deriving DecidableEq

namespace Binary

/-- The magnitude of a float from its bits, if it is finite. -/
def ofBits? (bits : UInt64) : Option Binary :=
  let field := (bits >>> 52).toNat % 2048
  let fraction := bits.toNat % 4503599627370496
  if field = 2047 then none
  else if field = 0 then some ⟨fraction, -1074⟩
  else some ⟨4503599627370496 + fraction, field - 1075⟩

/-- How far down and up the reals round to the number, in quarters of its step: half a step to
    either side, but a quarter down where the step below is half as large. -/
def quarters (b : Binary) : Nat × Nat :=
  (if b.significand = 4503599627370496 ∧ -1074 < b.exponent then 1 else 2, 2)

end Binary

/-- Which of two numbers is taken that are equally near. -/
inductive Tie where
  /-- The greater one. -/
  | up
  /-- The one whose last digit is even. -/
  | even
deriving DecidableEq

namespace Decimal

/-- A quotient of natural numbers, and how far it is to the ends of an interval around it, over
    the same divisor. -/
structure Interval where
  value : Nat
  below : Nat
  above : Nat
  divisor : Nat
  closed : Bool

/-- The reals that round to a number. -/
def Interval.ofBinary (b : Binary) : Interval :=
  let (below, above) := b.quarters
  let up := Nat.pow 2 b.exponent.toNat
  ⟨4 * b.significand * up, below * up, above * up, 4 * Nat.pow 2 (-b.exponent).toNat,
    b.significand % 2 = 0⟩

/-- How many digits a natural number has. -/
def digitCount (n : Nat) : Nat := (Nat.toDigits 10 n).length

/-- The exponent of the leading digit of a positive quotient. -/
def leadingExponent (num den : Nat) : Int :=
  if den ≤ num then
    digitCount (num / den) - 1
  else
    let count := digitCount (den / num)
    if den ≤ num * Nat.pow 10 (count - 1) then -(count - 1) else -count

/-- The quotient in units of `10^exponent`, as numerator and denominator. -/
def scaled (num den : Nat) (exponent : Int) : Nat × Nat :=
  (num * Nat.pow 10 (-exponent).toNat, den * Nat.pow 10 exponent.toNat)

/-- The number of the grid `10^exponent` in the interval that is nearest to the value, if there is
    one. -/
def onGrid? (tie : Tie) (i : Interval) (exponent : Int) : Option Nat :=
  let (value, divisor) := scaled i.value i.divisor exponent
  let unit := Nat.pow 10 (-exponent).toNat
  let lower := value / divisor
  let down := value % divisor
  let up := divisor - down
  let inside (gap room : Nat) : Bool := if i.closed then gap ≤ room else gap < room
  let lowerIn := inside down (i.below * unit)
  let upperIn := inside up (i.above * unit)
  let lowerFirst := down < up || (down = up && tie = .even && lower % 2 = 0)
  if lowerIn && (!upperIn || lowerFirst) then some lower
  else if upperIn then some (lower + 1)
  else none

/-- The first grid with a number in the interval, from the grid `10^exponent` on to finer ones. -/
def search (tie : Tie) (i : Interval) : Nat → Int → Decimal
  | 0, exponent => ⟨(scaled i.value i.divisor exponent).1 / (scaled i.value i.divisor exponent).2,
      exponent⟩
  | finer + 1, exponent =>
    match onGrid? tie i exponent with
    | some digits => ⟨digits, exponent⟩
    | none => search tie i finer (exponent - 1)

/-- **The fewest digits that read back**; a positive number has at most seventeen. -/
def shortest (tie : Tie) (b : Binary) : Decimal :=
  if b.significand = 0 then ⟨0, 0⟩
  else
    let i := Interval.ofBinary b
    search tie i 17 (leadingExponent i.value i.divisor)

end Decimal

end FieldRecords
