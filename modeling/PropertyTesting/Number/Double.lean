/-!
Double-precision numbers as bit patterns. A value that is only handed on keeps
its exact bits, whatever they stand for. A finite value is a whole number of
steps, and everything that must be exact is computed on that number.
-/

namespace PropertyTesting

/-- A double-precision number, given by its 64 bits. -/
structure Double where
  bits : UInt64
deriving DecidableEq, Repr, Inhabited

namespace Double

def ofFloat (x : Float) : Double :=
  ⟨x.toBits⟩

def toFloat (x : Double) : Float :=
  Float.ofBits x.bits

def zero : Double := ⟨0⟩

def one : Double := ⟨0x3ff0000000000000⟩

/-- Whether the sign bit is set, as it is for negative zero. -/
def isNegative (x : Double) : Bool :=
  x.bits >>> 63 == 1

/-- The bits without the sign. Positive numbers are ordered as these are. -/
def magnitude (x : Double) : UInt64 :=
  x.bits &&& 0x7fffffffffffffff

/-- The magnitude of infinity. Above it are the patterns of no number. -/
def infiniteMagnitude : UInt64 := 0x7ff0000000000000

def isNaN (x : Double) : Bool :=
  infiniteMagnitude < x.magnitude

def isInfinite (x : Double) : Bool :=
  x.magnitude == infiniteMagnitude

def isFinite (x : Double) : Bool :=
  x.magnitude < infiniteMagnitude

def isZero (x : Double) : Bool :=
  x.magnitude == 0

/-- Equality of the numbers: the two zeros are equal, and what is no number is
not even equal to itself. -/
def sameNumber (x y : Double) : Bool :=
  !x.isNaN && (x == y || x.isZero && y.isZero)

/-- Whether the number lies between zero and one, both included. -/
def inUnitInterval (x : Double) : Bool :=
  x.isZero || !x.isNegative && x.magnitude ≤ one.magnitude

def exponentBits (x : Double) : Nat :=
  (x.magnitude >>> 52).toNat

/-- The number of the step that a finite value is counted in: step `s` is two
to the power of `s - 1075`. -/
def step (x : Double) : Nat :=
  max x.exponentBits 1

/-- How many steps a finite value is away from zero. -/
def steps (x : Double) : Nat :=
  let fraction := (x.bits &&& 0xfffffffffffff).toNat
  if x.exponentBits = 0 then fraction else fraction + 1 <<< 52

/-- The step that is one. -/
def unitStep : Nat := 1075

/-- The absolute value of a finite number, without its fractional part. -/
def whole (x : Double) : Nat :=
  (x.steps <<< (x.step - unitStep)) >>> (unitStep - x.step)

/-- The absolute value of a finite number, rounded to a whole number. A half
goes to the even neighbour. -/
def rounded (x : Double) : Nat :=
  let unit := 1 <<< (unitStep - x.step)
  let n := x.steps <<< (x.step - unitStep)
  let rest := 2 * (n % unit)
  if rest < unit ∨ rest = unit ∧ n / unit % 2 = 0 then n / unit else n / unit + 1

/-- The number without its fractional part: the bits below one are cleared. -/
def truncate (x : Double) : Double :=
  if x.exponentBits < 1023 then
    ⟨x.bits &&& 0x8000000000000000⟩
  else if x.exponentBits < unitStep then
    let cleared := (unitStep - x.exponentBits).toUInt64
    ⟨x.bits >>> cleared <<< cleared⟩
  else
    x

/-- Half of a number that is not close to zero: one less in the exponent. -/
def half (x : Double) : Double :=
  ⟨x.bits - 0x10000000000000⟩

/-- The nearest whole number towards zero within the bounds of 64 bits. What
is no number counts as zero. -/
def toLong (x : Double) : Int64 :=
  if x.isNaN then
    0
  else if x.isNegative then
    Int64.ofInt (max (-x.whole) Int64.minValue.toInt)
  else
    Int64.ofInt (min x.whole Int64.maxValue.toInt)

/-- A number of steps of size two to the power of minus 53, for fewer than two
to the power of 53 of them. -/
def ofFraction (n : Nat) : Double :=
  ofFloat (n.toUInt64.toFloat / 9007199254740992.0)

/-- The least number of steps of size two to the power of minus 53 that are
not less than a number from zero to one. -/
def ceilFraction (x : Double) : Nat :=
  let s := 1022
  if s ≤ x.step then
    x.steps <<< (x.step - s)
  else
    let unit := 1 <<< (s - x.step)
    (x.steps + unit - 1) / unit

end Double

end PropertyTesting
