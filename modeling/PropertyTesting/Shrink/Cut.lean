/-!
Which stretches of a list may be cut out when it shrinks: everything above the
minimum length, then each half, then each single element.
-/

namespace PropertyTesting

/-- A stretch of positions, from `start` up to but not including `stop`. -/
structure Cut where
  start : Nat
  stop : Nat
deriving DecidableEq, Repr

namespace Cut

def size (c : Cut) : Nat :=
  c.stop - c.start

/-- A cut that takes something away and leaves at least `min` of `len`. -/
def Legal (len min : Nat) (c : Cut) : Prop :=
  c.start < c.stop ∧ min ≤ len - c.size

instance (len min : Nat) (c : Cut) : Decidable (Legal len min c) :=
  inferInstanceAs (Decidable (_ ∧ _))

def apply {α : Type} (c : Cut) (xs : List α) : List α :=
  xs.take c.start ++ xs.drop c.stop

/-- The cuts of many elements that come into question for a list longer than
`min`: all that can go, and each half. -/
def stretches (len min : Nat) : List Cut :=
  let half := len / 2
  [⟨min, len⟩]
    ++ (if min ≤ len - half then [⟨half, len⟩] else [])
    ++ (if 0 < half ∧ min ≤ len - half then [⟨0, half⟩] else [])

/-- The cuts of one element that come into question for a list longer than
`min`. -/
def singles (len min : Nat) : List Cut :=
  if min ≤ len - 1 ∧ 1 < len then (List.range len).map fun i => ⟨i, i + 1⟩ else []

/-- The cuts of a list of length `len` that leave at least `min` elements, the
biggest first and none twice. In a short list a stretch may be a single
element. -/
def all (len min : Nat) : List Cut :=
  if len ≤ min then
    []
  else
    let long := (stretches len min).eraseDups
    let short := (singles len min).filter fun c => !long.contains c
    (long ++ short).filter fun c => c.Legal len min

theorem map_apply {α β : Type} (f : α → β) (c : Cut) (xs : List α) :
    (c.apply xs).map f = c.apply (xs.map f) := by
  simp [apply]

end Cut

end PropertyTesting
