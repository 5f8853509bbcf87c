import Mathlib.Data.List.FinRange
import PropertyTesting.Proofs.Tree.Lists
import PropertyTesting.Tree.Nodes

/-!
Products of trees, of a list of them and of a row. The nodes of a product are
the products of nodes, one from each tree, in every combination:
`Tree.reaches_sequence` and `Nodes.reaches_product`. Both say of every node what
it is a product of, and so `toList_slots`, which goes by positions, tells the
children of every node.
-/

namespace PropertyTesting

open Branching

/-- What the first position gives comes first, and then what the others give. -/
theorem flatMap_finRange_succ {β : Type} {n : Nat} (f : Fin (n + 1) → List β) :
    (List.finRange (n + 1)).flatMap f = f 0 ++ (List.finRange n).flatMap fun i => f i.succ := by
  rw [List.finRange_succ, List.flatMap_cons, List.flatMap_map]

namespace Branching

variable {τ α : Type} [Branching τ α]

/-- The slots are taken position by position, and a child takes the place of the
node that is there now. -/
theorem toList_slots (ts : List τ) :
    (slots ts).toList =
      (List.finRange ts.length).flatMap fun i => (children (ts.get i)).map (ts.set i) := by
  induction ts with
  | nil => rfl
  | cons t ts ih =>
    rw [toList_slots_cons, ih, List.map_flatMap]
    simp only [List.map_map]
    exact (flatMap_finRange_succ fun i =>
      (children ((t :: ts).get i)).map ((t :: ts).set i)).symm

end Branching

/-- The value in a column of a row. -/
def Tuple.get : {types : List Type} → Tuple types → (i : Fin types.length) → types.get i
  | _ :: _, (v, _), ⟨0, _⟩ => v
  | _ :: _, (_, vs), ⟨i + 1, h⟩ => get vs ⟨i, Nat.lt_of_succ_lt_succ h⟩

namespace Nodes

section Columns

variable {τ : Type → Type} {types : List Type}

/-- The node in a column of a row. -/
def get : {types : List Type} → Nodes τ types → (i : Fin types.length) → τ (types.get i)
  | _ :: _, (t, _), ⟨0, _⟩ => t
  | _ :: _, (_, ts), ⟨i + 1, h⟩ => get ts ⟨i, Nat.lt_of_succ_lt_succ h⟩

/-- The row with another node in one of its columns. -/
def set : {types : List Type} → Nodes τ types → (i : Fin types.length) → τ (types.get i) →
    Nodes τ types
  | _ :: _, (_, ts), ⟨0, _⟩, c => cons c ts
  | _ :: _, (t, ts), ⟨i + 1, h⟩, c => cons t (set ts ⟨i, Nat.lt_of_succ_lt_succ h⟩ c)

@[simp] theorem get_set_self (ts : Nodes τ types) (i : Fin types.length) (c : τ (types.get i)) :
    (ts.set i c).get i = c := by
  induction ts using induction with
  | nil => exact i.elim0
  | cons t ts ih =>
    cases i using Fin.cases with
    | zero => rfl
    | succ i => exact ih i c

theorem get_set_of_ne (ts : Nodes τ types) {i j : Fin types.length} (h : i ≠ j)
    (c : τ (types.get i)) : (ts.set i c).get j = ts.get j := by
  induction ts using induction with
  | nil => exact i.elim0
  | cons t ts ih =>
    cases i using Fin.cases with
    | zero =>
      cases j using Fin.cases with
      | zero => exact absurd rfl h
      | succ j => rfl
    | succ i =>
      cases j using Fin.cases with
      | zero => rfl
      | succ j => exact ih (fun hij => h (congrArg Fin.succ hij)) c

variable [(α : Type) → Branching (τ α) α]

theorem get_values (ts : Nodes τ types) (i : Fin types.length) :
    ts.values.get i = value (ts.get i) := by
  induction ts using induction with
  | nil => exact i.elim0
  | cons t ts ih =>
    cases i using Fin.cases with
    | zero => rfl
    | succ i => exact ih i

/-- The slots of a row are taken column by column. -/
theorem toList_slots (ts : Nodes τ types) :
    ts.slots.toList =
      (List.finRange types.length).flatMap fun i => (children (ts.get i)).map (ts.set i) := by
  induction ts using induction with
  | nil => rfl
  | cons t ts ih =>
    rw [toList_slots_cons, ih, List.map_flatMap]
    simp only [List.map_map]
    exact (flatMap_finRange_succ fun i => (children ((cons t ts).get i)).map
      ((cons t ts).set i)).symm

theorem mem_slots {ts us : Nodes τ types} :
    us ∈ ts.slots.toList ↔ ∃ i, ∃ c ∈ children (ts.get i), ts.set i c = us := by
  simp [toList_slots]

theorem reaches_of_mem_slots {ts us vs : Nodes τ types}
    (h : ∀ i, Reaches (ts.get i) (us.get i)) (hvs : vs ∈ us.slots.toList) (j : Fin types.length) :
    Reaches (ts.get j) (vs.get j) := by
  obtain ⟨i, c, hc, rfl⟩ := mem_slots.1 hvs
  by_cases hij : i = j
  · subst hij
    rw [get_set_self]
    exact (h i).down hc
  · rw [get_set_of_ne us hij]
    exact h j

/-- Where every slot may be taken, the nodes of a row can go down together. -/
theorem reaches_of_columns {υ γ : Type} [Branching υ γ] {f : Nodes τ types → υ}
    (hf : ∀ ts, ∀ us ∈ ts.slots.toList, f us ∈ children (f ts)) {ts us : Nodes τ types}
    (h : ∀ i, Reaches (ts.get i) (us.get i)) : Reaches (f ts) (f us) := by
  induction ts using induction with
  | nil => rfl
  | @cons α types t ts ih =>
    obtain ⟨u, us⟩ := us
    have hfirst : Reaches (f (cons t ts)) (f (cons u ts)) := by
      refine Relation.ReflTransGen.lift (fun t => f (cons t ts)) (fun t c hc => hf _ _ ?_) _ _ (h 0)
      rw [toList_slots_cons]
      exact List.mem_append_left _ (List.mem_map_of_mem hc)
    refine hfirst.trans (ih (f := fun ts => f (cons u ts)) (fun ts us hus => hf _ _ ?_)
      fun i => h i.succ)
    rw [toList_slots_cons]
    exact List.mem_append_right _ (List.mem_map_of_mem hus)

end Columns

variable {types : List Type} {ts : Nodes Tree types}

/-- The nodes of a product are the products of nodes. -/
theorem reaches_product {u : Tree (Tuple types)} :
    Reaches ts.product u ↔
      ∃ us : Nodes Tree types, (∀ i, Reaches (ts.get i) (us.get i)) ∧ us.product = u := by
  constructor
  · intro h
    induction h with
    | refl => exact ⟨ts, fun i => .refl _, rfl⟩
    | tail _ hc ih =>
      obtain ⟨us, hdown, rfl⟩ := ih
      rw [children_tree, children_product] at hc
      obtain ⟨vs, hvs, rfl⟩ := List.mem_map.1 hc
      exact ⟨vs, reaches_of_mem_slots hdown hvs, rfl⟩
  · rintro ⟨us, hdown, rfl⟩
    refine reaches_of_columns (fun ts us hus => ?_) hdown
    rw [children_tree, children_product]
    exact List.mem_map_of_mem hus

theorem holds_columns {v : Tuple types} :
    (∀ i, (ts.get i).Holds (v.get i)) ↔
      ∃ us : Nodes Tree types, (∀ i, Reaches (ts.get i) (us.get i)) ∧ us.values = v := by
  constructor
  · intro h
    induction ts using induction with
    | nil => exact ⟨nil, fun i => i.elim0, rfl⟩
    | cons t ts ih =>
      obtain ⟨v, vs⟩ := v
      obtain ⟨u, hu, hv⟩ := h 0
      obtain ⟨us, hus, hvs⟩ := ih fun i => h i.succ
      exact ⟨cons u us, Fin.cases hu hus, Prod.ext hv hvs⟩
  · rintro ⟨us, hus, rfl⟩ i
    exact ⟨us.get i, hus i, (us.get_values i).symm⟩

theorem holds_product {v : Tuple types} :
    ts.product.Holds v ↔ ∀ i, (ts.get i).Holds (v.get i) := by
  rw [holds_columns]
  constructor
  · rintro ⟨u, hu, rfl⟩
    obtain ⟨us, hdown, rfl⟩ := reaches_product.1 hu
    exact ⟨us, hdown, us.value_product.symm⟩
  · rintro ⟨us, hdown, rfl⟩
    exact ⟨_, reaches_product.2 ⟨us, hdown, rfl⟩, us.value_product⟩

end Nodes

namespace Tree

variable {α : Type}

theorem children_sequence_positions (ts : List (Tree α)) :
    (sequence ts).children = (List.finRange ts.length).flatMap fun i =>
      (ts.get i).children.map fun c => sequence (ts.set i c) := by
  simp [toList_slots, List.map_flatMap, Function.comp_def]

theorem children_product_columns {types : List Type} (ts : Nodes Tree types) :
    ts.product.children = (List.finRange types.length).flatMap fun i =>
      (ts.get i).children.map fun c => (ts.set i c).product := by
  simp [Nodes.toList_slots, List.map_flatMap, Function.comp_def]

/-- Products lose no combination. A list is the value of a node of the product
of a list of trees if and only if it is as long and each element of it is the
value of a node of its tree; and every node of the product is the product of
nodes of the trees, and has for its children, position by position, those of the
node there with all other nodes as they are. So it is with rows of trees of
different types and their columns. -/
theorem products_hold_all (ts : List (Tree α)) {types : List Type} (row : Nodes Tree types) :
    ((∀ w, (sequence ts).Holds w ↔ w.length = ts.length ∧
        ∀ (i : Nat) (hi : i < ts.length) (hw : i < w.length), ts[i].Holds w[i]) ∧
      ∀ u, Reaches (sequence ts) u → ∃ us, List.Forall₂ Reaches ts us ∧ u = sequence us ∧
        u.value = us.map value ∧
        u.children = (List.finRange us.length).flatMap fun i =>
          (us.get i).children.map fun c => sequence (us.set i c)) ∧
    (∀ w, row.product.Holds w ↔ ∀ i, (row.get i).Holds (w.get i)) ∧
      ∀ u, Reaches row.product u → ∃ us : Nodes Tree types,
        (∀ i, Reaches (row.get i) (us.get i)) ∧ u = us.product ∧ u.value = us.values ∧
        u.children = (List.finRange types.length).flatMap fun i =>
          (us.get i).children.map fun c => (us.set i c).product := by
  refine ⟨⟨fun w => ?_, fun u hu => ?_⟩, fun w => Nodes.holds_product, fun u hu => ?_⟩
  · rw [holds_sequence, List.forall₂_iff_get, eq_comm]
    rfl
  · obtain ⟨us, hdown, rfl⟩ := reaches_sequence.1 hu
    exact ⟨us, hdown, rfl, value_sequence us, children_sequence_positions us⟩
  · obtain ⟨us, hdown, rfl⟩ := Nodes.reaches_product.1 hu
    exact ⟨us, hdown, rfl, us.value_product, children_product_columns us⟩

/-- Below a pair of trees whose first has gone down, the second goes down from
there. -/
theorem products_hold_all_pair :
    let low : Tree Nat := node 3 [leaf 1]
    let flag : Tree Bool := node true [leaf false]
    let row : Nodes Tree [Nat, Bool] := .cons low (.cons flag .nil)
    ((sequence [low, low]).Holds [1, 1] ∧
      ∃ us, List.Forall₂ Reaches [low, low] us ∧ sequence [leaf 1, low] = sequence us ∧
        [1, 3] = us.map value ∧ (sequence [leaf 1, low]).children =
          (List.finRange us.length).flatMap fun i =>
            (us.get i).children.map fun c => sequence (us.set i c)) ∧
    row.product.Holds (1, false, ()) ∧
      ∃ us : Nodes Tree [Nat, Bool], (∀ i, Reaches (row.get i) (us.get i)) ∧
        (Nodes.cons low (.cons (leaf false) .nil)).product = us.product ∧
        (3, false, ()) = us.values ∧
        (Nodes.cons low (.cons (leaf false) .nil)).product.children =
          (List.finRange 2).flatMap fun i =>
            (us.get i).children.map fun c => (us.set i c).product := by
  intro low flag row
  have h := products_hold_all [low, low] row
  have hlow : Reaches low (leaf 1) := .below (by simp [low]) (.refl _)
  have hflag : Reaches flag (leaf false) := .below (by simp [flag]) (.refl _)
  have hlist : Reaches (sequence [low, low]) (sequence [leaf 1, low]) :=
    reaches_sequence.2 ⟨_, .cons hlow (.cons (.refl _) .nil), rfl⟩
  have hrow : Reaches row.product (Nodes.cons low (.cons (leaf false) .nil)).product :=
    Nodes.reaches_product.2 ⟨.cons low (.cons (leaf false) .nil),
      Fin.forall_fin_two.2 ⟨.refl _, hflag⟩, rfl⟩
  refine ⟨⟨(h.1.1 [1, 1]).2 ⟨rfl, ?_⟩, h.1.2 _ hlist⟩, (h.2.1 (1, false, ())).2 ?_, h.2.2 _ hrow⟩
  · intro i hi hw
    match i with
    | 0 => exact ⟨leaf 1, hlow, rfl⟩
    | 1 => exact ⟨leaf 1, hlow, rfl⟩
  · exact Fin.forall_fin_two.2 ⟨⟨_, hlow, rfl⟩, _, hflag, rfl⟩

end Tree

end PropertyTesting
