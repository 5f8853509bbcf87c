import PropertyTesting.Generate.Arbitrary
import PropertyTesting.Shrink.Text
import PropertyTesting.Shrink.Double

/-!
Arbitraries of numbers, characters and texts.
-/

namespace PropertyTesting

namespace Draw

/-- A number from minus one up to but not including one, a multiple of two to
the power of minus 51. -/
def signedFraction : Draw Double := do
  let w ← word
  let oneToTwo := Float.ofBits ((w >>> 12) ||| Double.one.bits)
  return .ofFloat ((oneToTwo - 1.0) * 2.0 - 1.0)

/-- A power of ten, rounded to the nearest double. -/
def powerOfTen (exponent : Int) : Float :=
  Float.ofScientific 1 (exponent < 0) exponent.natAbs

/-- A finite number of any order of magnitude between minus and plus twenty. -/
def double : Draw Double := do
  let exponent ← integer .half (show (-20 : Int) ≤ 20 by decide)
  let mantissa ← signedFraction
  return .ofFloat (mantissa.toFloat * powerOfTen exponent)

def printable : Draw Char := do
  let i ← below .byte (show 0 < 95 by decide)
  return Char.ofNat (' '.toNat + i)

def printables : Nat → Draw (List Char)
  | 0 => return []
  | n + 1 => do
    let c ← printable
    let cs ← printables n
    return c :: cs

end Draw

namespace Arbitrary

/-- The edge cases of a range: zero and its neighbours and the bounds, as far
as they lie in the range. -/
def rangeEdges (lo hi : Int64) : List Int64 :=
  ([0, 1, -1, lo, hi].filter fun n => lo ≤ n && n ≤ hi).eraseDups

/-- Integers from `lo` to `hi`, both included. They shrink towards the one that
is closest to zero. -/
def longRange (lo hi : Int64) : Arbitrary Int64 :=
  if h : lo.toInt ≤ hi.toInt then
    let destination := Int64.ofInt (Shrink.origin lo.toInt hi.toInt)
    let draw : Draw Int64 := do
      let n ← Draw.integer .wide h
      return Int64.ofInt n
    (shrinking draw (.ofList ∘ Shrink.long destination)).withEdges (rangeEdges lo hi)
  else
    broken (.emptyRange lo.toInt hi.toInt)

def long : Arbitrary Int64 :=
  longRange Int64.minValue Int64.maxValue

def intRange (lo hi : Int32) : Arbitrary Int32 :=
  (longRange lo.toInt64 hi.toInt64).map Int64.toInt32

def int : Arbitrary Int32 :=
  intRange Int32.minValue Int32.maxValue

def positiveInt : Arbitrary Int32 :=
  intRange 1 Int32.maxValue

def negativeInt : Arbitrary Int32 :=
  intRange Int32.minValue (-1)

def bool : Arbitrary Bool :=
  shrinking Draw.bool (.ofList ∘ Shrink.bool)

/-- Both zeros, both ones, the least positive normal number, and the bounds. -/
def doubleEdges : List Double :=
  [⟨0⟩, ⟨0x8000000000000000⟩, ⟨0x3ff0000000000000⟩, ⟨0xbff0000000000000⟩,
    ⟨0x0010000000000000⟩, ⟨0x7fefffffffffffff⟩, ⟨0xffefffffffffffff⟩]

def double : Arbitrary Double :=
  (shrinking Draw.double (.ofList ∘ Shrink.double)).withEdges doubleEdges

def char : Arbitrary Char :=
  shrinking Draw.printable (.ofList ∘ Shrink.char)

/-- Texts of `min` to `max` printable ASCII characters. -/
def stringOf (min max : Nat) : Arbitrary String :=
  if max < min then
    broken (.emptyLengthRange min max)
  else
    let draw : Draw String := do
      let n ← Draw.between min max
      let cs ← Draw.printables n
      return String.ofList cs
    (shrinking draw (Shrink.string min)).withEdges (if min = 0 then [""] else [])

def string : Arbitrary String :=
  stringOf 0 100

end Arbitrary

end PropertyTesting
