import PropertyTesting.Generate.Arbitrary
import PropertyTesting.Tree.Product

/-!
Arbitraries that choose: between values, between arbitraries, how many
elements to generate, and whether to generate one at all.
-/

namespace PropertyTesting.Arbitrary

variable {α : Type}

/-- One of the values of an array that is not empty. No edge cases, no shrinks. -/
def ofArray (values : Array α) (h : 0 < values.size) : Arbitrary α :=
  ofDraw do
    let i ← Draw.below .wide h
    return values[i]

/-- One of given values. No edge cases, no shrinks. -/
def ofValues (values : List α) : Except Fault (Arbitrary α) :=
  if h : 0 < values.toArray.size then
    .ok (ofArray values.toArray h)
  else
    .error (.generator .noValues)

/-- The first edge case that is found when arbitraries are asked in turn. -/
def firstEdge : List (Arbitrary α) → Draw (Option α)
  | [] => return none
  | a :: as => do
    match ← a.edge with
    | some e => return some e
    | none => firstEdge as

/-- One of some arbitraries, chosen anew for every draw. The edge case comes
from an arbitrary that has one, whichever is met first in a random order. -/
def oneOf (first : Arbitrary α) (rest : List (Arbitrary α)) : Arbitrary α :=
  let choices := (first :: rest).toArray
  have h : 0 < choices.size := by simp [choices]
  { sample := do
      let i ← Draw.below .wide h
      choices[i].sample
    edge := do
      let order ← Draw.shuffle choices
      firstEdge order.toList }

def choice : List (Arbitrary α) → Except Fault (Arbitrary α)
  | [] => .error (.generator .noChoices)
  | first :: rest => .ok (oneOf first rest)

/-- Lists of `min` to `max` elements. They lose elements before the elements
shrink. The edge cases are the empty list and a single element that is one,
where the lengths allow it. -/
def list (element : Arbitrary α) (min max : Nat) : Arbitrary (List α) :=
  if max < min then
    broken (.emptyLengthRange min max)
  else
    { sample := do
        let n ← Draw.between min max
        let trees ← Attempt.times n do
          let s ← Attempt.forked element.sample
          return s.shrinks
        return .ofTree (.list trees min)
      edge := do
        let empty := if min = 0 then [[]] else []
        let single ←
          if min ≤ 1 ∧ 1 ≤ max then do
            let e ← element.edge
            pure (e.toList.map ([·]))
          else
            pure []
        Draw.choose (empty ++ single) }

/-- The number of words that stand for one tenth of all draws. -/
def tenth : Nat := 1844674407370955264

/-- A value nine times out of ten, and otherwise none. None is an edge case and
the first shrink of every value. -/
def option (inner : Arbitrary α) : Arbitrary (Option α) where
  sample := do
    if ← Draw.chance tenth then
      return .plain none
    else
      let s ← inner.sample
      return .ofTree s.shrinks.optional
  edge := do
    let e ← inner.edge
    let chosen ← Draw.choose [some none, e.map some]
    return chosen.join

end PropertyTesting.Arbitrary
