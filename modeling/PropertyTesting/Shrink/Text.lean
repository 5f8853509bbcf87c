import PropertyTesting.Shrink.Integer
import PropertyTesting.Shrink.Cut
import PropertyTesting.Row

/-!
Simpler characters and texts. The simplest character is the letter `a`. A text
loses a stretch of characters or else has its first character that is not yet
simple replaced.
-/

namespace PropertyTesting.Shrink

/-- The character with a code point, if there is one. -/
def charAt? (n : Int) : Option Char :=
  if h : n.toNat.isValidChar then some (.ofNatAux n.toNat h) else none

/-- The characters to try in place of another, the letter `a` first. -/
def char (c : Char) : List Char :=
  (towards 'a'.toNat c.toNat).filterMap charAt?

/-- Replace the first character that is not the letter `a` by the first character to
try in its place. -/
def simplifyFirst : List Char → Option (List Char)
  | [] => none
  | c :: cs =>
    if c = 'a' then (simplifyFirst cs).map (c :: ·) else (char c).head?.map (· :: cs)

/-- The texts to try in place of another: shorter ones of at least `min`
characters first, then one with a simpler character. Of equal neighbours only
the first is kept. -/
def string (min : Nat) (s : String) : Row String :=
  let cs := s.toList
  let shorter := (Row.ofList (Cut.all cs.length min)).map fun c => String.ofList (c.apply cs)
  let simpler := fun _ => Row.ofList ((simplifyFirst cs).map String.ofList).toList
  (shorter.append simpler).eraseReps

end PropertyTesting.Shrink
