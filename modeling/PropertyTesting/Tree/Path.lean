import PropertyTesting.Tree.Branching

/-!
Paths in a tree. A path names a node by the positions of the children that lead
to it from the root. `Tree.descend_eq` says that to follow a path takes no more
of a tree than the part that the path can reach.
-/

namespace PropertyTesting

namespace Branching

variable {τ α : Type} [Branching τ α]

/-- The node at the end of a path of child positions, or else the place in the
path where a child is missing. -/
def descend (path : List Nat) (t : τ) (place : Nat) : Except Nat τ :=
  match path with
  | [] => .ok t
  | i :: path =>
    match (row t).get? i with
    | some u => descend path u (place + 1)
    | none => .error place

@[simp] theorem descend_nil (t : τ) (place : Nat) : descend [] t place = .ok t := rfl

theorem descend_cons (i : Nat) (path : List Nat) (t : τ) (place : Nat) :
    descend (i :: path) t place =
      match (children t)[i]? with
      | some u => descend path u (place + 1)
      | none => .error place := by
  rw [← toList_row, Row.getElem?_toList]
  rfl

end Branching

namespace Tree

variable {α : Type}

/-- What is seen of the node at the end of a path is at the end of the path in
what is seen of the tree. -/
theorem descend_approx (path : List Nat) (t : Tree α) (place n : Nat) :
    Branching.descend path (t.approx (path.length + n)) place =
      (Branching.descend path t place).map (·.approx n) := by
  induction path generalizing t place with
  | nil => simp [Except.map]
  | cons i path ih =>
    have hn : (i :: path).length + n = path.length + n + 1 := by
      simp only [List.length_cons]
      omega
    rw [hn, Branching.descend_cons, Branching.descend_cons, Branching.children_rose,
      Branching.children_tree, ← map_approx_children, List.getElem?_map]
    cases t.children[i]? with
    | none => rfl
    | some u => exact ih u (place + 1)

/-- The tree at the end of a path. If the path leads nowhere, it is the tree
itself. -/
def subtree (path : List Nat) (t : Tree α) : Tree α where
  approx n :=
    match Branching.descend path (t.approx (path.length + n)) 0 with
    | .ok r => r
    | .error _ => t.approx n
  coherent n := by
    rw [descend_approx, descend_approx]
    cases Branching.descend path t 0 with
    | ok u => exact u.coherent n
    | error place => exact t.coherent n

/-- The tree at the end of a path of child positions, or else the place in the
path where a child is missing. -/
def descend (path : List Nat) (t : Tree α) : Except Nat (Tree α) :=
  match Branching.descend path (t.approx path.length) 0 with
  | .ok _ => .ok (t.subtree path)
  | .error place => .error place

/-- Following a path sees a tree as if its depth were not bounded. -/
theorem descend_eq (path : List Nat) (t : Tree α) :
    t.descend path = Branching.descend path t 0 := by
  have h := fun n => descend_approx path t 0 n
  rw [descend, show path.length = path.length + 0 from rfl, h]
  cases hd : Branching.descend path t 0 with
  | error place => rfl
  | ok u =>
    refine congrArg _ (Tree.ext fun n => ?_)
    simp [subtree, h, hd, Except.map]

end Tree

end PropertyTesting
