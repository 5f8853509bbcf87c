import PropertyTesting.Fault
import PropertyTesting.Generate.Sample
import PropertyTesting.Random.Choice

/-!
Arbitraries: generators of random values. An arbitrary says how to draw a
sample and how to pick one of the values that are known to cause trouble. It
keeps no state; all draws are made from the source it is given, and the source
keeps the draws that were made even when a sample fails.
-/

namespace PropertyTesting

/-- A computation that draws from a random source and may fail. -/
abbrev Attempt := ExceptT Fault Draw

namespace Attempt

variable {α : Type}

/-- Draw from a fork, at the cost of one draw from the source itself. -/
def forked (x : Attempt α) : Attempt α := fun rs =>
  let (child, rs) := Draw.fork rs
  ((x child).1, rs)

def times : Nat → Attempt α → Attempt (List α)
  | 0, _ => return []
  | n + 1, x => do
    let a ← x
    let as ← times n x
    return a :: as

end Attempt

/-- Draw from a fork, at the cost of one draw from the source itself. -/
def Draw.forked {α : Type} (x : Draw α) : Draw α := fun rs =>
  let (child, rs) := Draw.fork rs
  ((x child).1, rs)

/-- A generator of random values with their shrink trees, and of edge cases. -/
structure Arbitrary (α : Type) where
  sample : Attempt (Sample α)
  /-- One of the edge cases, if there are any. -/
  edge : Draw (Option α)

namespace Arbitrary

variable {α β : Type}

def ofSampler (sample : Attempt (Sample α)) : Arbitrary α :=
  ⟨sample, return none⟩

def ofDraw (draw : Draw α) : Arbitrary α :=
  ofSampler do
    let value ← draw
    return .plain value

/-- An arbitrary of values that shrink as a one-step function says. -/
def shrinking (draw : Draw α) (shrink : α → Row α) : Arbitrary α :=
  ofSampler do
    let value ← draw
    return .shrinking shrink value

/-- An arbitrary of which every sample fails. -/
def broken (reason : GeneratorFault) : Arbitrary α :=
  ofSampler (throw (.generator reason))

def constant (value : α) : Arbitrary α :=
  ofDraw (return value)

/-- Apply a function to samples, all they shrink to, and edge cases. -/
def map (f : α → β) (a : Arbitrary α) : Arbitrary β where
  sample := do
    let s ← a.sample
    return s.map f
  edge := do
    let e ← a.edge
    return e.map f

/-- Draw samples until one is accepted, at most a given number of times. -/
def sampleAccepted (a : Arbitrary α) (p : α → Bool) (limit : Nat) : Nat → Attempt (Sample α)
  | 0 => throw (.filterExhausted limit)
  | attempts + 1 => do
    let s ← a.sample
    match s.shrinks.filter p with
    | some t => return .ofTree t
    | none => sampleAccepted a p limit attempts

/-- Keep to the values that `p` accepts, among samples, all they shrink to, and
edge cases. A sample fails when too many draws in a row are rejected. -/
def filter (a : Arbitrary α) (p : α → Bool) (limit : Nat) : Arbitrary α where
  sample := a.sampleAccepted p limit limit
  edge := do
    let e ← a.edge
    return e.filter p

/-- The number of draws that a filter rejects before it gives up, unless it is
told otherwise. -/
def filterLimit : Nat := 10000

def withEdges (a : Arbitrary α) (edges : List α) : Arbitrary α where
  sample := a.sample
  edge := Draw.choose edges

/-- Change the edge cases, and drop those that become nothing. -/
def modifyEdges (a : Arbitrary α) (f : α → Option α) : Arbitrary α where
  sample := a.sample
  edge := do
    let e ← a.edge
    return e.bind f

/-- Draw a value, and then from the arbitrary that it selects. Only the second
draw shrinks. -/
def flatMap (a : Arbitrary α) (f : α → Arbitrary β) : Arbitrary β where
  sample := do
    let outer ← Attempt.forked a.sample
    Attempt.forked (f outer.value).sample
  edge := do
    match ← Draw.forked a.edge with
    | some outer => Draw.forked (f outer).edge
    | none => return none

end Arbitrary

end PropertyTesting
