import FieldRecords.Fault

/-!
# Drawing items

A sampler draws items from a range of numbers: all alike (`Distribution.uniform`), all alike
among the first part of the range (`Distribution.hotSpot`), or with the first items more often
than the later ones (`Distribution.zipf`). Randomness is a list of 64-bit words that is used up
from the front.

How words become items that are all alike, or items that come less and less often, is left to two
types of draws (`UniformDraws`, `ZipfDraws`). A sampler says which of them is drawn from, and over
which range.
-/

namespace FieldRecords

/-! ## 1. Randomness -/

/-- A value and the words it leaves; `none` if the words do not suffice. -/
abbrev Draw (α : Type) : Type := List UInt64 → Option (α × List UInt64)

/-- Draws of items that are all alike, from a lowest item up to and without a highest. -/
class UniformDraws (U : Type) where
  create : UInt64 → UInt64 → Except Fault U
  sample : U → Draw UInt64

/-- Draws of 1, 2, … up to a number of items, with probabilities that fall with a power of the
    item. -/
class ZipfDraws (Z : Type) where
  create : Float → Float → Except Fault Z
  sample : Z → Draw Float

/-! ## 2. Samplers -/

/-- How the items of a range are drawn. -/
inductive Distribution where
  | uniform
  /-- Only the first part of the range, this share of it, is drawn from. -/
  | hotSpot (share : Float)
  | zipf (exponent : Float)

/-- A way to draw items of a range. -/
inductive Sampler (U Z : Type) where
  | uniform (u : U)
  | hotSpot (u : U)
  | zipf (z : Z) (start : UInt64)

namespace Sampler

variable {U Z : Type} [UniformDraws U] [ZipfDraws Z]

def name : Sampler U Z → String
  | uniform _ => "Uniform"
  | hotSpot _ => "HotSpot"
  | zipf _ _ => "Zipf"

/-- The sampler of a distribution over the items from `start` up to and without `stop`. -/
def create (d : Distribution) (start stop : UInt64) : Except Fault (Sampler U Z) :=
  match d with
  | .uniform => (UniformDraws.create start stop).map uniform
  | .hotSpot share =>
    if share ≤ 1.0 then
      let hotStop := (start.toFloat + (stop - start).toFloat * share).toUInt64
      (UniformDraws.create start hotStop).map hotSpot
    else
      .error .hotSpotAboveOne
  | .zipf exponent =>
    (ZipfDraws.create (stop - start).toFloat exponent).map fun z => zipf z start

/-- **One item.** A Zipf sampler counts from one. -/
def sample : Sampler U Z → Draw UInt64
  | uniform u, words => UniformDraws.sample u words
  | hotSpot u, words => UniformDraws.sample u words
  | zipf z start, words =>
    (ZipfDraws.sample z words).map fun (x, words) => (x.toUInt64 - 1 + start, words)

/-- So many items, one after the other. -/
def sampleMany (s : Sampler U Z) : Nat → Draw (List UInt64)
  | 0, words => some ([], words)
  | count + 1, words => do
    let (item, words) ← s.sample words
    let (items, words) ← s.sampleMany count words
    return (item :: items, words)

end Sampler

end FieldRecords
