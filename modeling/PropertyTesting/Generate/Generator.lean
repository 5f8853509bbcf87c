import PropertyTesting.Config
import PropertyTesting.Generate.Enumeration

/-!
Generators of test data and the endless streams of samples that they give. An
arbitrary gives random samples mixed with edge cases; an enumeration gives its
values over and over, in order.
-/

namespace PropertyTesting

/-- A source of test data. -/
inductive Generator (α : Type) where
  | arbitrary (a : Arbitrary α)
  | exhaustive (values : Enumeration α)

/-- A stream of samples, at some place. -/
inductive Samples (α : Type) where
  | random (a : Arbitrary α) (edge : EdgeChance) (source : RandomSource)
  | cycle (values : Enumeration α) (place : Fin values.size)

namespace Samples

variable {α : Type}

/-- One draw: an edge case if the roll says so and there is one, and a fresh
sample otherwise. -/
def draw (a : Arbitrary α) (edge : EdgeChance) : Attempt (Sample α) := do
  if ← edge.roll then
    match ← a.edge with
    | some e => return .plain e
    | none => a.sample
  else
    a.sample

/-- The next sample of a stream, and the stream after it. -/
def next : Samples α → Except Fault (Sample α) × Samples α
  | random a edge source =>
    let drawn := draw a edge source
    (drawn.1, random a edge drawn.2)
  | cycle values place =>
    (.ok (.plain (values.get place)), cycle values (values.after place))

def take : Nat → Samples α → List (Except Fault (Sample α))
  | 0, _ => []
  | n + 1, s =>
    let (result, s) := s.next
    result :: take n s

/-- The values of the first samples, unless there is a fault among them. -/
def values : Nat → Samples α → Except Fault (List α)
  | 0, _ => .ok []
  | n + 1, s =>
    match s.next with
    | (.error fault, _) => .error fault
    | (.ok sample, s) => (values n s).map (sample.value :: ·)

end Samples

namespace Generator

variable {α β : Type}

/-- The stream of samples that a source and a chance of edge cases give. -/
def generate (g : Generator α) (source : RandomSource) (edge : EdgeChance) : Samples α :=
  match g with
  | arbitrary a => .random a edge source
  | exhaustive values => .cycle values values.first

/-- How many samples it takes before every value can have been seen. -/
def minIterations : Generator α → Nat
  | arbitrary _ => 1
  | exhaustive values => values.size

def map (f : α → β) : Generator α → Generator β
  | arbitrary a => arbitrary (a.map f)
  | exhaustive values => exhaustive (values.map f)

end Generator

namespace Arbitrary

variable {α : Type}

/-- The first fresh samples from a source, without any edge cases. -/
def samples (a : Arbitrary α) : Nat → RandomSource → List (Except Fault (Sample α))
  | 0, _ => []
  | n + 1, rs =>
    let (result, rs) := a.sample rs
    result :: samples a n rs

/-- A number of values, with the standard chance of edge cases. -/
def take (a : Arbitrary α) (n : Nat) (rs : RandomSource) : Except Fault (List α) :=
  ((Generator.arbitrary a).generate rs .standard).values n

/-- The different values of a number of draws that are edge cases if at all
possible, in the order in which they came up. -/
def edgeCases [BEq α] (a : Arbitrary α) (n : Nat) (rs : RandomSource) : Except Fault (List α) := do
  let vs ← ((Generator.arbitrary a).generate rs .always).values n
  return vs.foldl (fun seen v => if seen.contains v then seen else seen ++ [v]) []

end Arbitrary

end PropertyTesting
