import PropertyTesting.Generate.Arbitrary
import PropertyTesting.Tree.Nodes
import PropertyTesting.Tree.Product

/-!
Joining independent arbitraries. Every input draws from a fork of its own, in
order, and shrinks on its own, the first input first. An edge case takes the
edge case of each input, or a fresh sample of an input that has none; it counts
only if at least one input had one. The inputs may be a list of arbitraries of
one type, or a row of arbitraries of different types.
-/

namespace PropertyTesting

/-- Rows of arbitraries of given types. -/
def Inputs : List Type → Type
  | [] => Unit
  | α :: types => Arbitrary α × Inputs types

namespace Arbitrary

variable {α β : Type}

/-- The edge case of an input, or else a fresh sample, with a mark that tells
which. Nothing if that sample fails. -/
def edgeOrSample (a : Arbitrary α) : Draw (Option (Bool × α)) := do
  match ← a.edge with
  | some e => return some (true, e)
  | none =>
    match ← a.sample.run with
    | .ok s => return some (false, s.value)
    | .error _ => return none

/-- The shrink trees of a sample of each arbitrary of a list. -/
def trees : List (Arbitrary α) → Attempt (List (Tree α))
  | [] => return []
  | a :: as => do
    let s ← Attempt.forked a.sample
    let ts ← trees as
    return s.shrinks :: ts

/-- Values that are edge cases where possible, and whether any of them is. -/
def edges : List (Arbitrary α) → Draw (Option (Bool × List α))
  | [] => return some (false, [])
  | a :: as => do
    match ← a.edgeOrSample with
    | none => return none
    | some (hit, v) =>
      match ← edges as with
      | none => return none
      | some (hits, vs) => return some (hit || hits, v :: vs)

/-- The values that come with the mark that one of them is an edge case. -/
def marked : Option (Bool × α) → Option α
  | some (true, v) => some v
  | _ => none

def sequence (as : List (Arbitrary α)) : Arbitrary (List α) where
  sample := do
    let ts ← trees as
    return .ofTree (.sequence ts)
  edge := do
    let es ← edges as
    return marked es

/-- One value of each arbitrary of a list, put together by a function. -/
def bindAll (as : List (Arbitrary α)) (f : List α → β) : Arbitrary β :=
  (sequence as).map f

end Arbitrary

namespace Inputs

/-- The shrink trees of a sample of each arbitrary of a row. -/
def trees : {types : List Type} → Inputs types → Attempt (Nodes Tree types)
  | [], _ => return .nil
  | _ :: _, (a, as) => do
    let s ← Attempt.forked a.sample
    let ts ← trees as
    return .cons s.shrinks ts

/-- Values that are edge cases where possible, and whether any of them is. -/
def edges : {types : List Type} → Inputs types → Draw (Option (Bool × Tuple types))
  | [], _ => return some (false, ())
  | _ :: _, (a, as) => do
    match ← a.edgeOrSample with
    | none => return none
    | some (hit, v) =>
      match ← edges as with
      | none => return none
      | some (hits, vs) => return some (hit || hits, (v, vs))

def ofList {α : Type} : (as : List (Arbitrary α)) → Inputs (as.map fun _ => α)
  | [] => ()
  | a :: as => (a, ofList as)

end Inputs

/-- The values of a row that belongs to a list of arbitraries of one type. -/
def Tuple.toList {α β : Type} : (as : List β) → Tuple (as.map fun _ => α) → List α
  | [], _ => []
  | _ :: as, (v, vs) => v :: toList as vs

namespace Arbitrary

variable {types : List Type} {β : Type}

/-- A row of one value of each arbitrary of a row. -/
def zip (as : Inputs types) : Arbitrary (Tuple types) where
  sample := do
    let ts ← as.trees
    return .ofTree ts.product
  edge := do
    let es ← as.edges
    return marked es

/-- One value of each arbitrary of a row, put together by a function. -/
def bind (as : Inputs types) (f : Tuple types → β) : Arbitrary β :=
  (zip as).map f

end Arbitrary

end PropertyTesting
