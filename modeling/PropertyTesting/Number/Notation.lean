import PropertyTesting.Number.Decimal

/-!
How numbers are written. Doubles have two notations: an exact one, which shows
that the value is a double and keeps to few characters, and a plain one, which
never has an exponent.
-/

namespace PropertyTesting

/-- What a notation for doubles decides. -/
structure DoubleNotation where
  /-- Whether a whole number ends in a point and a zero. -/
  showsPoint : Bool
  /-- The leading powers of ten that are written without an exponent, from the
  first up to but not including the second, if there is a bound. -/
  positional : Option (Int × Int)

namespace DoubleNotation

/-- Numbers below `0.0001` or from `1e16` on have an exponent, and others have
a point. -/
def exact : DoubleNotation :=
  ⟨true, some (-4, 16)⟩

/-- All digits up to the last that is not zero. -/
def plain : DoubleNotation :=
  ⟨false, none⟩

def zeros (n : Nat) : List Char :=
  List.replicate n '0'

def writePositional (showsPoint : Bool) (digits : List Char) (exponent : Int) : List Char :=
  let places := (-exponent).toNat
  if 0 ≤ exponent then
    digits ++ zeros exponent.toNat ++ if showsPoint then ['.', '0'] else []
  else if places < digits.length then
    let front := digits.length - places
    digits.take front ++ '.' :: digits.drop front
  else
    '0' :: '.' :: zeros (places - digits.length) ++ digits

/-- The leading digit, the others behind a point, and an exponent. -/
def writeScientific (digits : List Char) (leading : Int) : List Char :=
  let mantissa :=
    match digits with
    | d :: [] => [d]
    | d :: ds => d :: '.' :: ds
    | [] => []
  mantissa ++ 'e' :: (toString leading).toList

def writeDecimal (style : DoubleNotation) (d : Decimal) : List Char :=
  let digits := Nat.toDigits 10 d.digits
  let leading := d.exponent + digits.length - 1
  let scientific : Bool :=
    match style.positional with
    | some (low, high) => d.digits != 0 && (leading < low || high ≤ leading)
    | none => false
  if scientific then
    writeScientific digits leading
  else
    writePositional style.showsPoint digits d.exponent

def write (style : DoubleNotation) (x : Double) : String :=
  if x.isNaN then
    "NaN"
  else
    let sign := if x.isNegative then "-" else ""
    if x.isInfinite then
      sign ++ "inf"
    else
      sign ++ String.ofList (style.writeDecimal (Decimal.shortest x))

end DoubleNotation

end PropertyTesting
