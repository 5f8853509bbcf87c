import PropertyTesting.Generate.Join
import PropertyTesting.Proofs.Generate.Stream

/-!
Joining a row of arbitraries of one type and joining them as a list. The one
shrinks a row of trees column by column, the other a list of trees at its
positions; yet they are the same but for the form of what they give,
`Tuple.toList`. Each input draws in its turn in both, so both fail at the same
input, with the same draws behind them.
-/

namespace PropertyTesting

variable {α β γ : Type}

namespace Tuple

@[simp] theorem length_toList (as : List β) (t : Tuple (as.map fun _ => α)) :
    (toList as t).length = as.length := by
  induction as with
  | nil => rfl
  | cons a as ih => exact congrArg (· + 1) (ih t.2)

theorem toList_injective (as : List β) : Function.Injective (toList (α := α) as) := by
  induction as with
  | nil => exact fun _ _ _ => rfl
  | cons a as ih =>
    intro t u h
    obtain ⟨hhead, htail⟩ := List.cons.inj h
    exact Prod.ext hhead (ih htail)

/-- Every list of the right length comes from a row. -/
theorem exists_toList_eq (as : List β) (vs : List α) (h : vs.length = as.length) :
    ∃ t, toList as t = vs := by
  induction as generalizing vs with
  | nil => exact ⟨(), (List.length_eq_zero_iff.1 h).symm⟩
  | cons a as ih =>
    obtain ⟨v, vs, rfl⟩ := List.exists_cons_of_length_eq_add_one h
    obtain ⟨t, rfl⟩ := ih vs (Nat.succ.inj h)
    exact ⟨(v, t), rfl⟩

end Tuple

namespace Nodes

/-- The nodes of a row that belongs to a list. -/
def toList {τ : Type → Type} : (as : List β) → Nodes τ (as.map fun _ => α) → List (τ α)
  | [], _ => []
  | _ :: as, (t, ts) => t :: toList as ts

@[simp] theorem toList_cons {τ : Type → Type} (a : β) (as : List β) (t : τ α)
    (ts : Nodes τ (as.map fun _ => α)) : toList (a :: as) (cons t ts) = t :: toList as ts := rfl

theorem toList_values (as : List β) (ts : Nodes Tree (as.map fun _ => α)) :
    Tuple.toList as ts.values = (toList as ts).map Tree.value := by
  induction as with
  | nil => rfl
  | cons a as ih => exact congrArg (ts.1.value :: ·) (ih ts.2)

/-- In a row and in a list the same nodes take the place of others, in the same
order. -/
theorem map_toList_slots (as : List β) (ts : Nodes Tree (as.map fun _ => α)) :
    ts.slots.toList.map (toList as) = (Branching.slots (toList as ts)).toList := by
  induction as with
  | nil => rfl
  | cons a as ih =>
    obtain ⟨t, ts⟩ := ts
    calc (cons t ts).slots.toList.map (toList (a :: as))
      _ = t.children.map (· :: toList as ts) ++ (ts.slots.toList.map (toList as)).map (t :: ·) := by
          simp [Function.comp_def]
      _ = (Branching.slots (t :: toList as ts)).toList := by
          rw [ih, Branching.toList_slots_cons, Branching.children_tree]

/-- The shrink tree of a row, with the rows read as lists, is that of the list. -/
theorem map_toList_product (as : List β) (ts : Nodes Tree (as.map fun _ => α)) :
    ts.product.map (Tuple.toList as) = Tree.sequence (toList as ts) :=
  Tree.ext_family (fun ts => ts.slots.toList) (f := fun ts => ts.product.map (Tuple.toList as))
    (g := fun ts => Tree.sequence (toList as ts)) (fun ts => by simp [toList_values])
    (fun ts => by simp [Function.comp_def])
    (fun ts => by simp [← map_toList_slots, Function.comp_def]) ts

end Nodes

namespace Inputs

/-- Drawn as a row or as a list, the trees are the same, and so is what is left
of the source when one of them fails. -/
theorem map_trees_ofList (as : List (Arbitrary α)) :
    Nodes.toList as <$> (ofList as).trees = Arbitrary.trees as := by
  induction as with
  | nil => rfl
  | cons a as ih =>
    simp only [ofList, trees, Arbitrary.trees, map_bind]
    refine bind_congr fun s => ?_
    simp only [← ih, bind_map_left, map_pure]
    rfl

/-- The edge cases of a row and of a list are the same, and carry the same mark. -/
theorem map_edges_ofList (as : List (Arbitrary α)) :
    Option.map (Prod.map id (Tuple.toList as)) <$> (ofList as).edges = Arbitrary.edges as := by
  induction as with
  | nil => rfl
  | cons a as ih =>
    simp only [ofList, edges, Arbitrary.edges, map_bind]
    refine bind_congr fun first => ?_
    rcases first with _ | ⟨hit, v⟩
    · rfl
    · simp only [← ih, bind_map_left, map_bind]
      refine bind_congr fun rest => ?_
      rcases rest with _ | ⟨hits, vs⟩
      · rfl
      · rfl

end Inputs

namespace Arbitrary

theorem marked_map (f : α → β) (o : Option (Bool × α)) :
    marked (o.map (Prod.map id f)) = (marked o).map f := by
  rcases o with _ | ⟨_ | _, v⟩
  · rfl
  · rfl
  · rfl

@[ext] theorem ext {a b : Arbitrary α} (hsample : a.sample = b.sample) (hedge : a.edge = b.edge) :
    a = b := by
  cases a
  cases b
  congr

theorem map_map (g : β → γ) (f : α → β) (a : Arbitrary α) : (a.map f).map g = a.map (g ∘ f) := by
  ext1
  · simp only [sample_map, Functor.map_map, Sample.map_map]
  · simp only [edge_map, Functor.map_map, Option.map_map]

/-- A row of inputs of one type, read as a list, is the list of them. -/
theorem map_zip_ofList (as : List (Arbitrary α)) :
    (zip (Inputs.ofList as)).map (Tuple.toList as) = sequence as := by
  ext1
  · calc ((zip (Inputs.ofList as)).map (Tuple.toList as)).sample
      _ = (fun ts => .ofTree (ts.product.map (Tuple.toList as))) <$> (Inputs.ofList as).trees := by
          simp only [sample_map, zip, bind_pure_comp, Functor.map_map]
          rfl
      _ = (sequence as).sample := by
          simp only [sequence, ← Inputs.map_trees_ofList, Nodes.map_toList_product, bind_pure_comp,
            Functor.map_map]
  · calc ((zip (Inputs.ofList as)).map (Tuple.toList as)).edge
      _ = marked <$> Option.map (Prod.map id (Tuple.toList as)) <$> (Inputs.ofList as).edges := by
          simp only [edge_map, zip, bind_pure_comp, Functor.map_map, marked_map]
      _ = (sequence as).edge := by
          rw [Inputs.map_edges_ofList]
          rfl

/-- A row of inputs of one type and the list of them. Rows of values stand for
the lists of as many values; under that reading both forms give the same sample
or fault and the same edge case or none, from every source, and leave it in the
same state; and with the same function on top of them their streams are the
same. -/
theorem zip_agrees_sequence (as : List (Arbitrary α)) :
    Function.Injective (Tuple.toList (α := α) as) ∧
    (∀ vs : List α, vs.length = as.length ↔ ∃ t, Tuple.toList as t = vs) ∧
    (∀ rs, (sequence as).sample rs =
      (((zip (Inputs.ofList as)).sample rs).1.map (Sample.map (Tuple.toList as)),
        ((zip (Inputs.ofList as)).sample rs).2)) ∧
    (∀ rs, (sequence as).edge rs =
      (((zip (Inputs.ofList as)).edge rs).1.map (Tuple.toList as),
        ((zip (Inputs.ofList as)).edge rs).2)) ∧
    ∀ {β : Type} (f : List α → β) (source : RandomSource) (edge : EdgeChance) (i : Nat),
      ((Generator.arbitrary (bind (Inputs.ofList as) (f ∘ Tuple.toList as))).generate
          source edge).nth i =
        ((Generator.arbitrary (bindAll as f)).generate source edge).nth i := by
  refine ⟨Tuple.toList_injective as, fun vs => ⟨Tuple.exists_toList_eq as vs, ?_⟩,
    fun rs => ?_, fun rs => ?_, fun f source edge i => ?_⟩
  · rintro ⟨t, rfl⟩
    exact Tuple.length_toList as t
  · rw [← map_zip_ofList, sample_map, Attempt.map_apply]
  · rw [← map_zip_ofList, edge_map]
    rfl
  · rw [bind, bindAll, ← map_zip_ofList, map_map]

end Arbitrary

end PropertyTesting
