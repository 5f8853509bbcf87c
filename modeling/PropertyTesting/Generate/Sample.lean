import PropertyTesting.Tree.Basic

/-!
Samples: what a generator hands out. A sample is a value together with the
tree of simpler values to try in its place, and the value is at its root.
-/

namespace PropertyTesting

/-- A generated value and the shrink tree above which it stands. The value is at
the root of the tree: that is promised of every sample, and `root` is the promise.
A value that someone puts beside the tree of another one breaks it, and is left
out here. -/
structure Sample (α : Type) where
  value : α
  shrinks : Tree α
  root : shrinks.value = value

namespace Sample

variable {α β : Type}

def ofTree (t : Tree α) : Sample α :=
  ⟨t.value, t, rfl⟩

def plain (value : α) : Sample α :=
  ⟨value, .leaf value, rfl⟩

def shrinking (shrink : α → Row α) (value : α) : Sample α :=
  ⟨value, .unfold shrink value, rfl⟩

/-- Apply a function to the value and to everything it shrinks to. -/
def map (f : α → β) (s : Sample α) : Sample β :=
  ofTree (s.shrinks.map f)

@[ext] theorem ext {s t : Sample α} (h : s.shrinks = t.shrinks) : s = t := by
  rcases s with ⟨_, _, rfl⟩
  rcases t with ⟨_, _, rfl⟩
  cases h
  rfl

@[simp] theorem ofTree_shrinks (s : Sample α) : ofTree s.shrinks = s :=
  ext rfl

end Sample

end PropertyTesting
