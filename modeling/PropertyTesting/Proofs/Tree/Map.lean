import PropertyTesting.Tree.Path
import PropertyTesting.Tree.Product

/-!
A function that is applied to all values of a tree. It keeps the shape: a path
leads to a node of the new tree where it leads to one of the old, and the new
node is the image of the old one. Whether it is applied to the trees that a
product, a list, an option or a filtered tree is made of, or to the whole, is all
the same. The laws go down both trees together, by `ext_family`.
-/

namespace PropertyTesting.Tree

open Branching (slots)

variable {α β γ : Type}

@[simp] theorem map_id_fun (t : Tree α) : (t.map fun v => v) = t :=
  ext_family children (f := fun t => t.map fun v => v) (g := fun t => t) (fun _ => rfl)
    (by simp) (by simp) t

theorem map_map (g : β → γ) (f : α → β) (t : Tree α) : (t.map f).map g = t.map (g ∘ f) :=
  ext_family children (f := fun t => (t.map f).map g) (g := fun t => t.map (g ∘ f))
    (fun _ => rfl) (by simp) (by simp) t

@[simp] theorem map_leaf (f : α → β) (v : α) : (leaf v).map f = leaf (f v) :=
  ext_children rfl (by simp)

/-- A path leads to the image of the node that it leads to in the tree, and
where it leads nowhere it breaks off at the same place. -/
theorem descend_map (f : α → β) (path : List Nat) (t : Tree α) :
    (t.map f).descend path = (t.descend path).map (map f) := by
  rw [descend_eq, descend_eq]
  generalize 0 = place
  induction path generalizing t place with
  | nil => rfl
  | cons i path ih =>
    rw [Branching.descend_cons, Branching.descend_cons, Branching.children_tree,
      Branching.children_tree, children_map, List.getElem?_map]
    cases t.children[i]? with
    | none => rfl
    | some u => exact ih u (place + 1)

theorem slots_map (f : α → β) (ts : List (Tree α)) :
    (slots (ts.map (map f))).toList = (slots ts).toList.map (List.map (map f)) := by
  induction ts with
  | nil => rfl
  | cons t ts ih => simp [ih, Function.comp_def]

theorem sequence_map (f : α → β) (ts : List (Tree α)) :
    sequence (ts.map (map f)) = (sequence ts).map (List.map f) :=
  ext_family (fun ts => (slots ts).toList) (f := fun ts => sequence (ts.map (map f)))
    (g := fun ts => (sequence ts).map (List.map f)) (by simp) (by simp [slots_map])
    (by simp) ts

theorem cutsAndSlots_map (f : α → β) (ts : List (Tree α)) (min : Nat) :
    (cutsAndSlots min (ts.map (map f))).toList =
      (cutsAndSlots min ts).toList.map (List.map (map f)) := by
  simp [slots_map, Cut.map_apply, Function.comp_def]

theorem list_map (f : α → β) (ts : List (Tree α)) (min : Nat) :
    list (ts.map (map f)) min = (list ts min).map (List.map f) :=
  ext_family (fun ts => (cutsAndSlots min ts).toList) (f := fun ts => list (ts.map (map f)) min)
    (g := fun ts => (list ts min).map (List.map f)) (by simp)
    (fun ts => by rw [children_list, cutsAndSlots_map, List.map_map]; rfl)
    (fun ts => by rw [children_map, children_list, List.map_map]; rfl) ts

theorem optional_map (f : α → β) (t : Tree α) :
    (t.map f).optional = t.optional.map (Option.map f) :=
  -- The leaf of nothing at all has to belong to both families.
  ext_family (fun i : Option (Tree α) => i.elim [] fun t => none :: t.children.map some)
    (f := fun i => i.elim (leaf none) fun t => (t.map f).optional)
    (g := fun i => i.elim (leaf none) fun t => t.optional.map (Option.map f))
    (fun i => by cases i <;> rfl) (fun i => by cases i <;> simp) (fun i => by cases i <;> simp)
    (some t)

theorem prune_map (f : α → β) (p : β → Bool) (t : Tree α) :
    (t.map f).prune p = (t.prune (p ∘ f)).map f :=
  ext_family (fun t => t.children.filter (p ∘ f ∘ value)) (f := fun t => (t.map f).prune p)
    (g := fun t => (t.prune (p ∘ f)).map f) (fun _ => rfl)
    (fun t => by simp [List.filter_map, Function.comp_def])
    (fun t => by simp [Function.comp_def]) t

/-- Images are kept where `p` accepts them, so the same subtrees are cut away
before and after. -/
theorem filter_map (f : α → β) (p : β → Bool) (t : Tree α) :
    (t.map f).filter p = (t.filter (p ∘ f)).map (map f) := by
  unfold filter
  rw [value_map, prune_map]
  split
  · rename_i h
    simp [h]
  · rename_i h
    simp [h]

end PropertyTesting.Tree
