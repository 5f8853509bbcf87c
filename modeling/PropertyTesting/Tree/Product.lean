import PropertyTesting.Tree.Branching
import PropertyTesting.Shrink.Cut

/-!
Shrink trees of values that are made of parts. One part shrinks at a time,
the first part first, and the others stay as they are. Lists can also lose
elements, which is tried before any element shrinks.
-/

namespace PropertyTesting.Tree

open Branching (slots)

variable {α β : Type}

theorem truncate_approxes (ts : List (Tree α)) (n : Nat) :
    (ts.map (·.approx (n + 1))).map (Rose.truncate n) = ts.map (·.approx n) := by
  simp [coherent]

theorem slots_truncate (n : Nat) (rs : List (Rose α)) :
    (slots (rs.map (Rose.truncate (n + 1)))).toList.map (List.map (Rose.truncate n)) =
      (slots rs).toList.map (List.map (Rose.truncate n)) := by
  induction rs with
  | nil => rfl
  | cons r rs ih =>
    have h := congrArg (List.map (r.truncate n :: ·)) ih
    simp only [List.map_map, Function.comp_def] at h
    simp [Function.comp_def, h]

theorem slots_approx (n : Nat) (ts : List (Tree α)) :
    (slots (ts.map (·.approx (n + 1)))).toList.map (List.map (Rose.truncate n)) =
      (slots ts).toList.map (List.map (·.approx n)) := by
  induction ts with
  | nil => rfl
  | cons t ts ih =>
    have h := congrArg (List.map (t.approx n :: ·)) ih
    simp only [List.map_map, Function.comp_def] at h
    simp [Function.comp_def, h, ← map_approx_children, coherent,
      truncate_approx]

/-- The values at the roots of several trees, shrinking one at a time. -/
def sequence (ts : List (Tree α)) : Tree (List α) :=
  generateFrom (List.map Rose.value) slots (fun n => List.map (Rose.truncate n))
    (by simp) slots_truncate (fun n => ts.map (·.approx n)) (truncate_approxes ts)

@[simp] theorem value_sequence (ts : List (Tree α)) :
    (sequence ts).value = ts.map value := by
  simp [sequence, generateFrom, value, Function.comp_def]

@[simp] theorem children_sequence (ts : List (Tree α)) :
    (sequence ts).children = (slots ts).toList.map sequence :=
  children_eq fun n => by
    rw [sequence, children_approx_generateFrom, slots_approx, List.map_map, List.map_map]
    rfl

/-- The ways to cut a list of nodes down to no less than `min`, then the ways
to replace one of them by one of its children. -/
def cutsAndSlots {τ : Type} [Branching τ α] (min : Nat) (ts : List τ) : Row (List τ) :=
  ((Row.ofList (Cut.all ts.length min)).map (·.apply ts)).append fun _ => slots ts

@[simp] theorem toList_cutsAndSlots {τ : Type} [Branching τ α] (min : Nat) (ts : List τ) :
    (cutsAndSlots min ts).toList =
      (Cut.all ts.length min).map (·.apply ts) ++ (slots ts).toList := by
  simp [cutsAndSlots]

theorem mem_cutsAndSlots {τ : Type} [Branching τ α] {min : Nat} {ts us : List τ} :
    us ∈ (cutsAndSlots min ts).toList ↔
      (∃ c ∈ Cut.all ts.length min, c.apply ts = us) ∨ us ∈ (slots ts).toList := by
  simp

theorem cutsAndSlots_truncate (min n : Nat) (rs : List (Rose α)) :
    (cutsAndSlots min (rs.map (Rose.truncate (n + 1)))).toList.map (List.map (Rose.truncate n)) =
      (cutsAndSlots min rs).toList.map (List.map (Rose.truncate n)) := by
  simp [slots_truncate, Cut.map_apply, Function.comp_def]

theorem cutsAndSlots_approx (min n : Nat) (ts : List (Tree α)) :
    (cutsAndSlots min (ts.map (·.approx (n + 1)))).toList.map (List.map (Rose.truncate n)) =
      (cutsAndSlots min ts).toList.map (List.map (·.approx n)) := by
  simp [slots_approx, Cut.map_apply, Function.comp_def, coherent]

/-- The values at the roots of several trees, losing elements as long as at
least `min` are left, or else shrinking one at a time. -/
def list (ts : List (Tree α)) (min : Nat) : Tree (List α) :=
  generateFrom (List.map Rose.value) (cutsAndSlots min) (fun n => List.map (Rose.truncate n))
    (by simp) (cutsAndSlots_truncate min) (fun n => ts.map (·.approx n)) (truncate_approxes ts)

@[simp] theorem value_list (ts : List (Tree α)) (min : Nat) :
    (list ts min).value = ts.map value := by
  simp [list, generateFrom, value, Function.comp_def]

@[simp] theorem children_list (ts : List (Tree α)) (min : Nat) :
    (list ts min).children = (cutsAndSlots min ts).toList.map (list · min) :=
  children_eq fun n => by
    rw [list, children_approx_generateFrom, cutsAndSlots_approx, List.map_map, List.map_map]
    rfl

/-- An optional value that is there: it shrinks to nothing at all first, and
then as the value does. -/
def optional (t : Tree α) : Tree (Option α) :=
  generateFrom (Option.map Rose.value)
    (fun
      | none => .nil
      | some r => .cons none fun _ => r.row.map some)
    (fun n => Option.map (Rose.truncate n))
    (by simp [Function.comp_def])
    (by rintro n (_ | r) <;> simp [Function.comp_def])
    (fun n => some (t.approx n)) (by simp [coherent])

@[simp] theorem value_optional (t : Tree α) : t.optional.value = some t.value := rfl

@[simp] theorem children_optional (t : Tree α) :
    t.optional.children = leaf none :: t.children.map optional :=
  children_eq fun n => by
    rw [optional, children_approx_generateFrom]
    simp [← map_approx_children, Function.comp_def, truncate_approx]
    constructor
    · cases n <;> rfl
    · exact fun _ _ => rfl

end PropertyTesting.Tree
