import PropertyTesting.Tree.Basic

/-!
What trees, and their finite parts, have in common: a value and finitely many
children at every node.
-/

namespace PropertyTesting

/-- Nodes with a value and finitely many children. -/
class Branching (τ : Type) (α : outParam Type) where
  value : τ → α
  /-- The children as a row, computed as far as it is looked at. -/
  row : τ → Row τ

instance (α : Type) : Branching (Rose α) α := ⟨Rose.value, Rose.row⟩

instance (α : Type) : Branching (Tree α) α := ⟨Tree.value, Tree.row⟩

namespace Branching

variable {τ α : Type} [Branching τ α]

def children (t : τ) : List τ :=
  (row t).toList

@[simp] theorem toList_row (t : τ) : (row t).toList = children t := rfl

@[simp] theorem children_rose (r : Rose α) : children r = r.children := rfl

@[simp] theorem children_tree (t : Tree α) : children t = t.children := rfl

/-- The ways to replace one node of a list by one of its children, the first
node first. -/
def slots : List τ → Row (List τ)
  | [] => .nil
  | t :: ts => ((row t).map (· :: ts)).append fun _ => (slots ts).map (t :: ·)

@[simp] theorem toList_slots_nil : (slots ([] : List τ)).toList = [] := rfl

@[simp] theorem toList_slots_cons (t : τ) (ts : List τ) :
    (slots (t :: ts)).toList =
      (children t).map (· :: ts) ++ (slots ts).toList.map (t :: ·) := by
  simp [slots]

end Branching

end PropertyTesting
