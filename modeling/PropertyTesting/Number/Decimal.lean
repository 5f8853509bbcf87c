import PropertyTesting.Number.Double

/-!
The shortest decimal that reads back as a given double. The numbers that round
to a double form an interval around it. For one digit, then two, and so on, the
two decimals next to the double are tried against that interval; the first
number of digits at which one fits is taken.
-/

namespace PropertyTesting

/-- The number `digits` times ten to the power of `exponent`. -/
structure Decimal where
  digits : Nat
  exponent : Int
deriving DecidableEq, Repr

namespace Decimal

/-- Move zeros at the end of the digits into the exponent. -/
def normalize (d : Decimal) : Decimal :=
  if 0 < d.digits ∧ d.digits % 10 = 0 then
    normalize ⟨d.digits / 10, d.exponent + 1⟩
  else
    d
termination_by d.digits
decreasing_by omega

def tenTo : Nat → Nat
  | 0 => 1
  | n + 1 => 10 * tenTo n

/-- The numbers that round to one double, as fractions over one denominator. -/
structure Interval where
  value : Nat
  low : Nat
  high : Nat
  denominator : Nat
  /-- Whether the ends themselves round to the double. -/
  closed : Bool

/-- The interval of a finite double that is not zero. Below a power of two the
gap to the next double is half as wide. -/
def Interval.around (x : Double) : Interval :=
  let narrow := x.steps == 1 <<< 52 && 1 < x.step
  let shift := x.step - (Double.unitStep + 2)
  { value := (4 * x.steps) <<< shift
    low := (4 * x.steps - if narrow then 1 else 2) <<< shift
    high := (4 * x.steps + 2) <<< shift
    denominator := 1 <<< (Double.unitStep + 2 - x.step)
    closed := x.steps % 2 == 0 }

/-- The interval counted in units of ten to the power of `exponent`. -/
def Interval.inUnits (i : Interval) (exponent : Int) : Interval :=
  let up := tenTo (-exponent).toNat
  { value := i.value * up
    low := i.low * up
    high := i.high * up
    denominator := i.denominator * tenTo exponent.toNat
    closed := i.closed }

/-- Whether a whole number of units lies in the interval. -/
def Interval.contains (i : Interval) (n : Nat) : Bool :=
  let m := n * i.denominator
  if i.closed then i.low ≤ m && m ≤ i.high else i.low < m && m < i.high

/-- The whole number of units in the interval that is nearest to its value, if
there is one. Of two that are equally near it is the greater. -/
def Interval.nearest? (i : Interval) : Option Nat :=
  let n := i.value / i.denominator
  let rest := i.value % i.denominator
  match i.contains n, i.contains (n + 1) with
  | true, true => some (if i.denominator ≤ 2 * rest then n + 1 else n)
  | true, false => some n
  | false, true => some (n + 1)
  | false, false => none

/-- The power of ten at the leading digit: a guess from the binary length,
mended by comparison. -/
def Interval.leading (i : Interval) : Int :=
  let binary : Int := (i.value.log2 : Int) - i.denominator.log2 - 1
  let guess := (binary * 30103).fdiv 100000 - 1
  let reached (e : Int) : Bool :=
    i.denominator * tenTo e.toNat ≤ i.value * tenTo (-e).toNat
  guess + ((List.range 4).filter fun k : Nat => reached (guess + k + 1)).length

/-- Try ever more digits, at most `fuel` further ones. -/
def search (i : Interval) (leading : Int) (digits : Nat) : Nat → Decimal
  | 0 => ⟨i.value / i.denominator, 0⟩
  | fuel + 1 =>
    let exponent := leading + 1 - digits
    match (i.inUnits exponent).nearest? with
    | some n => ⟨n, exponent⟩
    | none => search i leading (digits + 1) fuel

/-- The shortest decimal that reads back as the absolute value of a finite
double, and of these the one nearest to it. Seventeen digits always suffice. -/
def shortest (x : Double) : Decimal :=
  if x.isZero then
    ⟨0, 0⟩
  else
    let i := Interval.around x
    (search i i.leading 1 17).normalize

end Decimal

end PropertyTesting
