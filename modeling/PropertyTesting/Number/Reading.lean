import PropertyTesting.Number.Double

/-!
Numbers read from text. A natural number is a row of ASCII digits, perhaps
after a plus sign. A double has a sign, digits with at most one point, and an
exponent, of which only one digit is required; or it is named.
-/

namespace PropertyTesting.Reading

def digitsValue (cs : List Char) : Nat :=
  cs.foldl (fun n c => 10 * n + (c.toNat - '0'.toNat)) 0

/-- A row of at least one digit, to the end of the text. -/
def digits? (cs : List Char) : Option Nat :=
  if !cs.isEmpty && cs.all Char.isDigit then some (digitsValue cs) else none

/-- A natural number below a bound. -/
def natural? (bound : Nat) (cs : List Char) : Option Nat :=
  let unsigned :=
    match cs with
    | '+' :: cs => cs
    | cs => cs
  (digits? unsigned).filter (· < bound)

/-- Whether the text begins with a minus sign, and the text after the sign. -/
def sign : List Char → Bool × List Char
  | '-' :: cs => (true, cs)
  | '+' :: cs => (false, cs)
  | cs => (false, cs)

/-- An integer: a sign and digits, to the end of the text. -/
def integer? (cs : List Char) : Option Int :=
  let (negative, cs) := sign cs
  (digits? cs).map fun n => if negative then -n else n

/-- An exponent behind its mark, or none at the end of the text. -/
def exponent? : List Char → Option Int
  | [] => some 0
  | c :: cs => if c = 'e' ∨ c = 'E' then integer? cs else none

/-- The digits times ten to the power of the exponent, rounded to the nearest
double. Beyond four hundred places it is infinite or zero. -/
def nearest (digits : List Char) (exponent : Int) : Double :=
  let significant := digits.dropWhile (· = '0')
  let places := exponent + significant.length
  if significant.isEmpty ∨ places < -400 then
    .zero
  else if 400 < places then
    ⟨Double.infiniteMagnitude⟩
  else
    .ofFloat (Float.ofScientific (digitsValue significant) (exponent < 0) exponent.natAbs)

def magnitude? (cs : List Char) : Option Double :=
  let name := String.ofList (cs.map Char.toLower)
  if name = "inf" ∨ name = "infinity" then
    some ⟨Double.infiniteMagnitude⟩
  else if name = "nan" then
    some ⟨0x7ff8000000000000⟩
  else
    let front := cs.takeWhile Char.isDigit
    let rest := cs.dropWhile Char.isDigit
    let (back, rest) :=
      match rest with
      | '.' :: rest => (rest.takeWhile Char.isDigit, rest.dropWhile Char.isDigit)
      | rest => ([], rest)
    if front.isEmpty && back.isEmpty then
      none
    else
      (exponent? rest).map fun e => nearest (front ++ back) (e - back.length)

def double? (cs : List Char) : Option Double :=
  let (negative, cs) := sign cs
  (magnitude? cs).map fun x => if negative then ⟨x.bits ||| 0x8000000000000000⟩ else x

end PropertyTesting.Reading
