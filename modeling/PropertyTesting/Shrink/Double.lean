import PropertyTesting.Number.Double

/-!
Simpler doubles: zero, the number without its fraction, and half of it.
-/

namespace PropertyTesting.Shrink

/-- The least number of which a half is tried. -/
def two : Double := ⟨0x4000000000000000⟩

/-- The doubles to try in place of another. Zeros, infinities and what is no
number have none. -/
def double (x : Double) : List Double :=
  if x.isZero || !x.isFinite then
    []
  else
    let whole := x.truncate
    let half := x.half.truncate
    [.zero]
      ++ (if whole ≠ x ∧ ¬whole.isZero then [whole] else [])
      ++ (if two.magnitude ≤ x.magnitude ∧ half ≠ whole ∧ ¬half.isZero then [half] else [])

end PropertyTesting.Shrink
