import FieldRecords.Workload.Sampler

/-!
# Draws from words

One way to draw items, which takes words until one of them is accepted: a word for an item that is
like all others (`UniformSampler`), and two words for an item that comes the less often the larger
it is (`ZipfSampler`).
-/

namespace FieldRecords

/-! ## 1. All alike -/

/-- Draws from `low` on, `range` items, by words below `modulus`. Words of 32 bits are enough if
    the last item fits them. -/
structure UniformSampler where
  low : UInt64
  range : UInt64
  modulus : Nat

namespace UniformSampler

/-- From `low` up to and without `high`. -/
def create (low high : UInt64) : Except Fault UniformSampler :=
  if low < high then
    .ok ⟨low, high - low,
      if high - 1 < 0x100000000 then 4294967296 else 18446744073709551616⟩
  else
    .error (.noSampler .emptyRange)

/-- The low parts that would make some items likelier than others lie below this. -/
def threshold (u : UniformSampler) : Nat :=
  (u.modulus - u.range.toNat) % u.range.toNat

/-- **One item**: a word is multiplied by the range and the high part is the item, unless the low
    part lies below the threshold. -/
def sample (u : UniformSampler) : Draw UInt64
  | [] => none
  | word :: words =>
    let product := word.toNat % u.modulus * u.range.toNat
    if u.threshold ≤ product % u.modulus then
      some (u.low + (product / u.modulus).toUInt64, words)
    else
      u.sample words

end UniformSampler

instance : UniformDraws UniformSampler := ⟨UniformSampler.create, UniformSampler.sample⟩

/-! ## 2. The first more often -/

/-- A word as a fraction: its 53 leading bits, below one. -/
def unitFraction (word : UInt64) : Float :=
  (word >>> 11).toFloat / 9007199254740992

/-- Draws 1, 2, … with probabilities that fall with a power of the item. `total` is the area
    under the hat that is drawn from, and `inverse` the power that inverts it. -/
structure ZipfSampler where
  exponent : Float
  total : Float
  inverse : Float

namespace ZipfSampler

def create (items exponent : Float) : Except Fault ZipfSampler :=
  if !(exponent ≥ 0) then .error (.noSampler .exponentTooSmall)
  else if items < 1 then .error (.noSampler .tooFewItems)
  else if exponent != 1 then
    let inverse := 1 / (1 - exponent)
    .ok ⟨exponent, (items.pow (1 - exponent) - exponent) * inverse, inverse⟩
  else
    .ok ⟨exponent, 1 + items.log, 0⟩

/-- The place under the hat up to which the area is the share `p` of the total. -/
def place (z : ZipfSampler) (p : Float) : Float :=
  let area := p * z.total
  if area ≤ 1 then area
  else if z.exponent == 1 then (area - 1).exp
  else (area * (1 - z.exponent) + z.exponent).pow z.inverse

/-- **One item**: a place is drawn under the hat, and accepted with the share of the hat that the
    distribution has there. -/
def sample (z : ZipfSampler) : Draw Float
  | word₁ :: word₂ :: words =>
    let b := z.place (unitFraction word₁)
    let x := (b + 1).floor
    let power := x.pow (-z.exponent)
    let ratio := if x > 1 then power * b.pow z.exponent else power
    if unitFraction word₂ < ratio then some (x, words) else z.sample words
  | _ => none

end ZipfSampler

instance : ZipfDraws ZipfSampler := ⟨ZipfSampler.create, ZipfSampler.sample⟩

end FieldRecords
