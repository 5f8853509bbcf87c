import PropertyTesting.Tree.Branching

/-!
Rows of trees of different types, and the shrink trees of rows of values. One
column shrinks at a time, the first column first, and the others stay as they
are.
-/

namespace PropertyTesting

/-- Rows of values of given types. -/
def Tuple : List Type → Type
  | [] => Unit
  | α :: types => α × Tuple types

/-- Rows of nodes, above values of given types. -/
def Nodes (τ : Type → Type) : List Type → Type
  | [] => Unit
  | α :: types => τ α × Nodes τ types

namespace Nodes

variable {τ υ : Type → Type} {α : Type} {types : List Type}

def nil : Nodes τ [] :=
  ()

def cons (t : τ α) (ts : Nodes τ types) : Nodes τ (α :: types) :=
  (t, ts)

/-- A row ends, or it has a column more than the row that follows. -/
@[elab_as_elim]
theorem induction {motive : (types : List Type) → Nodes τ types → Prop} (nil : motive [] nil)
    (cons : ∀ {α : Type} {types : List Type} (t : τ α) (ts : Nodes τ types),
      motive types ts → motive (α :: types) (cons t ts)) :
    {types : List Type} → (ts : Nodes τ types) → motive types ts
  | [], () => nil
  | _ :: _, (t, ts) => cons t ts (induction nil cons ts)

/-- Change the node in every column. -/
def map (f : (α : Type) → τ α → υ α) : {types : List Type} → Nodes τ types → Nodes υ types
  | [], _ => nil
  | α :: _, (t, ts) => cons (f α t) (map f ts)

section Branching

variable [(α : Type) → Branching (τ α) α]

def values : {types : List Type} → Nodes τ types → Tuple types
  | [], _ => ()
  | _ :: _, (t, ts) => (Branching.value t, values ts)

/-- The ways to replace one node of a row by one of its children, the first
node first. -/
def slots : {types : List Type} → Nodes τ types → Row (Nodes τ types)
  | [], _ => .nil
  | _ :: _, (t, ts) =>
    ((Branching.row t).map (cons · ts)).append fun _ => (slots ts).map (cons t)

@[simp] theorem toList_slots_cons (t : τ α) (ts : Nodes τ types) :
    (cons t ts).slots.toList =
      (Branching.children t).map (cons · ts) ++ ts.slots.toList.map (cons t) := by
  have hslots : (cons t ts).slots =
      ((Branching.row t).map (cons · ts)).append fun _ => ts.slots.map (cons t) := rfl
  simp [hslots]

end Branching

/-- The part of each tree that lies at most `n` steps below its root. -/
def approx (n : Nat) : Nodes Tree types → Nodes Rose types :=
  map fun _ t => t.approx n

def truncate (n : Nat) : Nodes Rose types → Nodes Rose types :=
  map fun _ => Rose.truncate n

section Cut

variable (n : Nat)

@[simp] theorem truncate_cons (r : Rose α) (rs : Nodes Rose types) :
    (cons r rs).truncate n = cons (r.truncate n) (rs.truncate n) := rfl

@[simp] theorem approx_cons (t : Tree α) (ts : Nodes Tree types) :
    (cons t ts).approx n = cons (t.approx n) (ts.approx n) := rfl

theorem values_truncate (rs : Nodes Rose types) : (rs.truncate n).values = rs.values := by
  induction rs using induction with
  | nil => rfl
  | cons r rs ih => exact Prod.ext (Rose.value_truncate n r) ih

theorem values_approx (ts : Nodes Tree types) : (ts.approx n).values = ts.values := by
  induction ts using induction with
  | nil => rfl
  | cons t ts ih => exact Prod.ext (t.value_approx n) ih

@[simp] theorem truncate_truncate (rs : Nodes Rose types) :
    (rs.truncate (n + 1)).truncate n = rs.truncate n := by
  induction rs using induction with
  | nil => rfl
  | cons r rs ih => simp [ih]

@[simp] theorem truncate_approx (ts : Nodes Tree types) :
    (ts.approx (n + 1)).truncate n = ts.approx n := by
  induction ts using induction with
  | nil => rfl
  | cons t ts ih => simp [ih, t.coherent]

theorem slots_truncate (rs : Nodes Rose types) :
    (rs.truncate (n + 1)).slots.toList.map (truncate n) = rs.slots.toList.map (truncate n) := by
  induction rs using induction with
  | nil => rfl
  | cons r rs ih =>
    have h := congrArg (List.map (cons (r.truncate n))) ih
    simp only [List.map_map, Function.comp_def] at h
    simp [Function.comp_def, h]

theorem slots_approx (ts : Nodes Tree types) :
    (ts.approx (n + 1)).slots.toList.map (truncate n) = ts.slots.toList.map (approx n) := by
  induction ts using induction with
  | nil => rfl
  | cons t ts ih =>
    have h := congrArg (List.map (cons (t.approx n))) ih
    simp only [List.map_map, Function.comp_def] at h
    simp [Function.comp_def, h, ← Tree.map_approx_children, Tree.truncate_approx, Tree.coherent]

end Cut

/-- The values at the roots of a row of trees, shrinking one at a time. -/
def product (ts : Nodes Tree types) : Tree (Tuple types) :=
  Tree.generateFrom values slots truncate values_truncate slots_truncate (fun n => ts.approx n)
    (fun n => ts.truncate_approx n)

@[simp] theorem value_product (ts : Nodes Tree types) : ts.product.value = ts.values :=
  ts.values_approx 0

@[simp] theorem children_product (ts : Nodes Tree types) :
    ts.product.children = ts.slots.toList.map product :=
  Tree.children_eq fun n => by
    rw [product, Tree.children_approx_generateFrom, slots_approx, List.map_map, List.map_map]
    rfl

end Nodes

end PropertyTesting
