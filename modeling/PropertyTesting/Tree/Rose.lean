import PropertyTesting.Row

/-!
Rose trees of bounded depth, whose nodes are computed when they are looked at.
All of them are grown: from a starting state, a label for each state and a
row of successor states, down to a given depth. A tree that is cut off at a
depth is the same tree grown less deep, and that is the fact from which trees
of unlimited depth are put together.
-/

namespace PropertyTesting

/-- Siblings in a row, each with the row of its own children. -/
inductive Forest (α : Type) where
  | nil
  | cons (label : Thunk α) (below beside : Unit → Forest α)

/-- A label above a row of children. -/
structure Rose (α : Type) where
  label : Thunk α
  below : Unit → Forest α

namespace Forest

variable {α : Type}

def row : Forest α → Row (Rose α)
  | nil => .nil
  | cons label below beside => .cons ⟨label, below⟩ fun _ => (beside ()).row

def ofRow : Row (Rose α) → Forest α
  | .nil => nil
  | .cons r rest => cons r.label r.below fun _ => ofRow (rest ())

@[simp] theorem row_ofRow (rs : Row (Rose α)) : (ofRow rs).row = rs := by
  induction rs with
  | nil => rfl
  | cons r rest ih => rw [ofRow, row, funext fun _ => ih ()]

@[simp] theorem ofRow_row (f : Forest α) : ofRow f.row = f := by
  induction f with
  | nil => rfl
  | cons label below beside _ ih => rw [row, ofRow, funext fun _ => ih ()]

theorem row_injective {f g : Forest α} (h : f.row = g.row) : f = g := by
  rw [← ofRow_row f, ← ofRow_row g, h]

end Forest

namespace Rose

universe u
variable {α : Type} {σ : Type u}

def value (r : Rose α) : α :=
  r.label.get

/-- The trees below the root as a row, computed as far as it is looked at. -/
def row (r : Rose α) : Row (Rose α) :=
  (r.below ()).row

def children (r : Rose α) : List (Rose α) :=
  r.row.toList

@[simp] theorem toList_row (r : Rose α) : r.row.toList = r.children := rfl

theorem ext {r s : Rose α} (hv : r.value = s.value) (hc : r.children = s.children) :
    r = s := by
  cases r
  cases s
  congr
  · exact Thunk.ext hv
  · exact funext fun _ => Forest.row_injective (Row.ext hc)

/-- A tree of a label and a row of children. -/
def node (label : Unit → α) (children : Unit → Row (Rose α)) : Rose α :=
  ⟨Thunk.mk label, fun _ => .ofRow (children ())⟩

@[simp] theorem value_node (label : Unit → α) (children : Unit → Row (Rose α)) :
    (node label children).value = label () := rfl

@[simp] theorem row_node (label : Unit → α) (children : Unit → Row (Rose α)) :
    (node label children).row = children () :=
  Forest.row_ofRow _

@[simp] theorem children_node (label : Unit → α) (children : Unit → Row (Rose α)) :
    (node label children).children = (children ()).toList := by
  rw [← toList_row, row_node]

/-- The tree of all states that can be reached from `s` in at most the given
number of steps. -/
def grow (label : σ → α) (next : σ → Row σ) : Nat → σ → Rose α
  | 0, s => node (fun _ => label s) fun _ => .nil
  | n + 1, s => node (fun _ => label s) fun _ => (next s).map (grow label next n)

section Growing

variable (label : σ → α) (next : σ → Row σ) (n : Nat) (s : σ)

@[simp] theorem value_grow : (grow label next n s).value = label s := by
  cases n <;> rfl

@[simp] theorem children_grow_zero : (grow label next 0 s).children = [] := rfl

@[simp] theorem children_grow_succ :
    (grow label next (n + 1) s).children = (next s).toList.map (grow label next n) := by
  simp [grow]

end Growing

/-- The part of a tree that lies at most `n` steps below the root. -/
def truncate (n : Nat) (r : Rose α) : Rose α :=
  grow value row n r

@[simp] theorem value_truncate (n : Nat) (r : Rose α) : (r.truncate n).value = r.value :=
  value_grow ..

@[simp] theorem children_truncate_zero (r : Rose α) : (r.truncate 0).children = [] := rfl

@[simp] theorem children_truncate_succ (n : Nat) (r : Rose α) :
    (r.truncate (n + 1)).children = r.children.map (truncate n) :=
  children_grow_succ ..

/-- A tree cut off at a depth is the same tree grown less deep. -/
theorem truncate_grow (label : σ → α) (next : σ → Row σ) (n : Nat) (s : σ) :
    (grow label next (n + 1) s).truncate n = grow label next n s := by
  induction n generalizing s with
  | zero => exact ext (by simp) (by simp)
  | succ n ih =>
    refine ext (by simp) ?_
    simp only [children_truncate_succ, children_grow_succ, List.map_map]
    exact List.map_congr_left fun s _ => ih s

@[simp] theorem truncate_truncate (n : Nat) (r : Rose α) :
    (r.truncate (n + 1)).truncate n = r.truncate n :=
  truncate_grow ..

@[simp] theorem truncate_self (n : Nat) (r : Rose α) :
    (r.truncate n).truncate n = r.truncate n := by
  induction n generalizing r with
  | zero => exact ext (by simp) (by simp)
  | succ n ih => exact ext (by simp) (by simp [ih])

/-- States that are themselves made of trees may be cut off, one step less
deep with each step of growing, without a change to the tree that grows. -/
theorem grow_cut {label : σ → α} {next : σ → Row σ} (cut : Nat → σ → σ)
    (label_cut : ∀ n s, label (cut n s) = label s)
    (next_cut : ∀ n s,
      (next (cut (n + 1) s)).toList.map (cut n) = (next s).toList.map (cut n))
    (n : Nat) (s : σ) : grow label next n (cut n s) = grow label next n s := by
  induction n generalizing s with
  | zero => exact ext (by simp [label_cut]) (by simp)
  | succ n ih =>
    refine ext (by simp [label_cut]) ?_
    have h : grow label next n = grow label next n ∘ cut n := funext fun s => (ih s).symm
    rw [children_grow_succ, children_grow_succ, h, ← List.map_map, ← List.map_map, next_cut]

end Rose

end PropertyTesting
