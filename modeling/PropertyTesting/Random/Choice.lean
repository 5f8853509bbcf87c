import PropertyTesting.Random.Range

/-!
Draws that pick from what is at hand: an element of a list, an order of its
positions, an outcome with a given chance.
-/

namespace PropertyTesting

/-- The scale at which one of `n` positions is drawn: upper halves of words, as long
as they can hold `n`. -/
def Scale.positions (n : Nat) : Scale :=
  if n < half.words then half else wide

namespace Draw

/-- One of `n` positions. -/
def position {n : Nat} (h : 0 < n) : Draw (Fin n) :=
  below (.positions n) h

/-- An element of a list, or nothing from the empty list, which costs no draw. -/
def choose {α : Type} (xs : List α) : Draw (Option α) :=
  if h : 0 < xs.length then do
    let i ← position h
    return some (xs.get i)
  else
    return none

/-- Exchange each position from `i` down to the second with a random one not
above it. -/
def shuffleFrom {α : Type} : Nat → Array α → Draw (Array α)
  | 0, xs => return xs
  | i + 1, xs => do
    let j ← position (Nat.succ_pos (i + 1))
    shuffleFrom i (xs.swapIfInBounds (i + 1) j)

def shuffle {α : Type} (xs : Array α) : Draw (Array α) :=
  shuffleFrom (xs.size - 1) xs

/-- The upper 53 bits of one word: the numerator of a fraction below one. -/
def fraction : Draw Nat := do
  let w ← word
  return (w >>> 11).toNat

/-- An outcome that `threshold` of all words stand for. -/
def chance (threshold : Nat) : Draw Bool := do
  let w ← word
  return w.toNat < threshold

end Draw

end PropertyTesting
