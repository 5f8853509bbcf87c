import PropertyTesting.Tree.Branching

/-!
Walks over a tree: breadth-first up to a number of nodes, and depth-first down
to a depth. Rows of children wait in line as they are, and a child is computed
when the walk comes to it. No walk leaves the finite part of a tree that its
bound allows, so it runs over that part; `Tree.shrinks_eq`, `Tree.expand_succ`
and `Tree.count_succ` say what it amounts to on the tree itself.
-/

namespace PropertyTesting

/-- A waiting line of rows, kept in two halves of which the back is reversed.
A row that nobody has come to is not computed. -/
structure Queue (τ : Type) where
  front : List (Unit → Row τ)
  back : List (Unit → Row τ)

namespace Queue

variable {τ : Type}

/-- The elements of rows that stand one after another. -/
def elements (rs : List (Unit → Row τ)) : List τ :=
  rs.flatMap fun r => (r ()).toList

def toList (q : Queue τ) : List τ :=
  elements (q.front ++ q.back.reverse)

def ofRow (r : Row τ) : Queue τ :=
  ⟨[fun _ => r], []⟩

def append (q : Queue τ) (r : Unit → Row τ) : Queue τ :=
  ⟨q.front, r :: q.back⟩

/-- Take the first element off rows that stand one after another. -/
def popRows? : List (Unit → Row τ) → Option (τ × List (Unit → Row τ))
  | [] => none
  | r :: rs =>
    match r () with
    | .nil => popRows? rs
    | .cons t rest => some (t, rest :: rs)

def pop? (q : Queue τ) : Option (τ × Queue τ) :=
  match popRows? q.front with
  | some (t, front) => some (t, ⟨front, q.back⟩)
  | none => (popRows? q.back.reverse).map fun (t, front) => (t, ⟨front, []⟩)

@[simp] theorem toList_ofRow (r : Row τ) : (ofRow r).toList = r.toList := by
  simp [ofRow, toList, elements]

@[simp] theorem toList_append (q : Queue τ) (r : Unit → Row τ) :
    (q.append r).toList = q.toList ++ (r ()).toList := by
  simp [append, toList, elements]

theorem elements_append (rs ss : List (Unit → Row τ)) :
    elements (rs ++ ss) = elements rs ++ elements ss :=
  List.flatMap_append

theorem elements_of_popRows? (rs : List (Unit → Row τ)) :
    match popRows? rs with
    | none => elements rs = []
    | some (t, rest) => elements rs = t :: elements rest := by
  induction rs with
  | nil => rfl
  | cons r rs ih => cases h : r () <;> simp_all [popRows?, elements]

/-- The head is the first element of the line, and the others stay. -/
theorem toList_of_pop? (q : Queue τ) :
    match q.pop? with
    | none => q.toList = []
    | some (t, rest) => q.toList = t :: rest.toList := by
  have hf := elements_of_popRows? q.front
  have hb := elements_of_popRows? q.back.reverse
  rw [pop?, toList, elements_append]
  cases h : popRows? q.front with
  | some p => simp_all [toList, elements_append]
  | none => cases h' : popRows? q.back.reverse <;> simp_all [toList]

end Queue

namespace Branching

variable {τ α : Type} [Branching τ α]

/-- The values met on a breadth-first walk of at most `n` nodes, which starts
from the nodes in a line. -/
def walk : Nat → Queue τ → List α
  | 0, _ => []
  | n + 1, q =>
    match q.pop? with
    | none => []
    | some (t, rest) => value t :: walk n (rest.append fun _ => row t)

@[simp] theorem walk_zero (q : Queue τ) : walk 0 q = [] := rfl

theorem walk_succ (n : Nat) (q : Queue τ) :
    walk (n + 1) q =
      match q.pop? with
      | none => []
      | some (t, rest) => value t :: walk n (rest.append fun _ => row t) := rfl

/-- A walk depends on the nodes in line only, not on how the line is kept. -/
theorem walk_congr (n : Nat) {q r : Queue τ} (h : q.toList = r.toList) : walk n q = walk n r := by
  induction n generalizing q r with
  | zero => rfl
  | succ n ih =>
    have hq := q.toList_of_pop?
    have hr := r.toList_of_pop?
    rw [walk_succ, walk_succ]
    cases hp : q.pop? <;> cases hp' : r.pop? <;> simp_all
    exact ih (by simp [hr])

@[simp] theorem walk_nil (n : Nat) : walk n (.ofRow (.nil : Row τ)) = [] := by
  cases n <;> rfl

@[simp] theorem walk_cons (n : Nat) (t : τ) (rest : Unit → Row τ) :
    walk (n + 1) (.ofRow (.cons t rest)) =
      value t :: walk n (.ofRow ((rest ()).append fun _ => row t)) := by
  rw [walk_succ]
  exact congrArg _ <| walk_congr n <| by
    simp [Queue.toList, Queue.elements, Queue.append, Queue.ofRow]

/-- The values below the root in breadth-first order, at most `n` of them. -/
def shrinks (n : Nat) (t : τ) : List α :=
  walk n (.ofRow (row t))

/-- Put the values down to a depth, which are met in depth-first order, on top
of those that were met before. -/
def expandOnto : Nat → List α → τ → List α
  | 0, met, t => value t :: met
  | depth + 1, met, t => (row t).foldl (expandOnto depth) (value t :: met)

/-- The values down to a depth in depth-first order, the root first. -/
def expand (depth : Nat) (t : τ) : List α :=
  (expandOnto depth [] t).reverse

theorem expandOnto_eq (depth : Nat) (met : List α) (t : τ) :
    expandOnto depth met t = (expand depth t).reverse ++ met := by
  induction depth generalizing met t with
  | zero => rfl
  | succ depth ih =>
    simp [expand, expandOnto, Row.foldl_eq_flatMap ih]

@[simp] theorem expand_zero (t : τ) : expand 0 t = [value t] := rfl

@[simp] theorem expand_succ (depth : Nat) (t : τ) :
    expand (depth + 1) t = value t :: (children t).flatMap (expand depth) := by
  simp [expand, expandOnto, Row.foldl_eq_flatMap (expandOnto_eq depth)]

def count : Nat → τ → Nat
  | 0, _ => 1
  | depth + 1, t => (row t).foldl (fun n u => n + count depth u) 1

end Branching

namespace Tree

open Branching (walk)

variable {α : Type}

/-- A walk over finite parts of trees is a walk over the trees themselves, as
long as it cannot leave those parts. -/
theorem walk_approx (n : Nat) (ps : Row (Tree α × Nat)) (h : ∀ p ∈ ps.toList, n ≤ p.2 + 1) :
    walk n (.ofRow (ps.map fun p => p.1.approx p.2)) = walk n (.ofRow (ps.map Prod.fst)) := by
  induction n generalizing ps with
  | zero => rfl
  | succ n ih =>
    match ps with
    | .nil => rfl
    | .cons (t, 0) rest =>
      have := h (t, 0) (by simp)
      obtain rfl : n = 0 := by omega
      simp [Row.map, Branching.value, value_approx]
    | .cons (t, m + 1) rest =>
      have hm := h (t, m + 1) (by simp)
      have := ih ((rest ()).append fun _ => t.row.map (·, m)) (by
        intro p hp
        rcases List.mem_append.1 (Row.toList_append _ _ ▸ hp) with hp | hp
        · have := h p (by simp [hp])
          omega
        · obtain ⟨u, _, rfl⟩ := List.mem_map.1 (Row.toList_map _ _ ▸ hp)
          simp only at hm ⊢
          omega)
      simpa [Row.map, Branching.value, Branching.row, value_approx, ← map_approx_row,
        Row.map_append, Row.map_map, Function.comp_def] using this

/-- The values below the root in breadth-first order, at most `n` of them. -/
def shrinks (t : Tree α) (n : Nat) : List α :=
  Branching.shrinks n (t.approx n)

/-- The values down to a depth in depth-first order, the root first. -/
def expand (t : Tree α) (depth : Nat) : List α :=
  Branching.expand depth (t.approx depth)

def count (t : Tree α) (depth : Nat) : Nat :=
  Branching.count depth (t.approx depth)

def hasShrinks (t : Tree α) : Bool :=
  !(t.approx 1).row.isEmpty

/-- The breadth-first listing sees a tree as if its depth were not bounded. -/
theorem shrinks_eq (t : Tree α) (n : Nat) : t.shrinks n = Branching.shrinks n t := by
  cases n with
  | zero => rfl
  | succ n =>
    have := walk_approx (n + 1) (t.row.map (·, n)) (by
        intro p hp
        obtain ⟨u, _, rfl⟩ := List.mem_map.1 (Row.toList_map _ _ ▸ hp)
        simp)
    simpa [shrinks, Branching.shrinks, Branching.row, ← map_approx_row, Row.map_map,
      Function.comp_def] using this

@[simp] theorem expand_zero (t : Tree α) : t.expand 0 = [t.value] := rfl

@[simp] theorem expand_succ (t : Tree α) (depth : Nat) :
    t.expand (depth + 1) = t.value :: t.children.flatMap (·.expand depth) := by
  simp [expand, Branching.value, value_approx, ← map_approx_children, List.flatMap_map]

@[simp] theorem count_zero (t : Tree α) : t.count 0 = 1 := rfl

@[simp] theorem count_succ (t : Tree α) (depth : Nat) :
    t.count (depth + 1) = t.children.foldl (fun n u => n + u.count depth) 1 := by
  rw [count, Branching.count, ← Row.foldl_toList, Branching.toList_row, Branching.children_rose,
    ← map_approx_children, List.foldl_map]
  rfl

@[simp] theorem hasShrinks_eq (t : Tree α) : t.hasShrinks = !t.children.isEmpty := by
  rw [hasShrinks, ← Row.isEmpty_toList, Rose.toList_row, ← map_approx_children, List.isEmpty_map]

end Tree

end PropertyTesting
