import Mathlib.Data.Set.Operations
import PropertyTesting.Proofs.Shrink.Cut
import PropertyTesting.Proofs.Tree.Reach
import PropertyTesting.Tree.Nodes
import PropertyTesting.Tree.Product

/-!
Trees whose values all lie in a set, however deep they go. Every operation on
trees stays in the set that it should. The proofs are one and the same: name
the family of trees that an operation gives, and see that the children of its
members are members again.
-/

namespace PropertyTesting

open Branching

variable {α β : Type}

/-- The lists of `min` to `max` elements of a set. -/
def listsOf (S : Set α) (min max : Nat) : Set (List α) :=
  {vs | (min ≤ vs.length ∧ vs.length ≤ max) ∧ ∀ v ∈ vs, v ∈ S}

section Lists

variable {S : Set α} {min max : Nat} {vs : List α}

theorem listsOf_cut (hvs : vs ∈ listsOf S min max) {c : Cut} (hc : c ∈ Cut.all vs.length min) :
    c.apply vs ∈ listsOf S min max := by
  have hsub := Cut.apply_sublist hc
  exact ⟨⟨Cut.min_le_length_apply hc, Nat.le_trans hsub.length_le hvs.1.2⟩,
    fun v hv => hvs.2 v (hsub.subset hv)⟩

theorem listsOf_set (hvs : vs ∈ listsOf S min max) (i : Nat) {v : α} (hv : v ∈ S) :
    vs.set i v ∈ listsOf S min max := by
  refine ⟨by simpa using hvs.1, fun w hw => ?_⟩
  rcases List.mem_or_eq_of_mem_set hw with hw | rfl
  · exact hvs.2 w hw
  · exact hv

end Lists

/-- The lists whose elements are in given sets, one for each position. -/
def product (Ss : List (Set α)) : Set (List α) :=
  {vs | List.Forall₂ (fun v S => v ∈ S) vs Ss}

namespace Tree

variable {S T : Set α} {t c : Tree α}

/-- Every value in a tree, at any depth, is in a set. -/
def All (S : Set α) (t : Tree α) : Prop :=
  ∀ u, Reaches t u → u.value ∈ S

theorem All.root (h : t.All S) : t.value ∈ S :=
  h t (.refl t)

theorem All.child (h : t.All S) (hc : c ∈ t.children) : c.All S :=
  fun u hu => h u (.below hc hu)

theorem All.mono (h : t.All S) (hST : S ⊆ T) : t.All T :=
  fun u hu => hST (h u hu)

/-- A family of trees is never left if the children of members are members. -/
theorem reaches_of_family {ι : Type} {f : ι → Tree α} {P : ι → Prop}
    (hchildren : ∀ i, P i → ∀ c ∈ (f i).children, ∃ j, P j ∧ f j = c) {i : ι} (hi : P i)
    {u : Tree α} (hu : Reaches (f i) u) : ∃ j, P j ∧ f j = u := by
  have hstep : ∀ t, (∃ i, P i ∧ f i = t) → ∀ c ∈ t.children, ∃ j, P j ∧ f j = c := by
    rintro _ ⟨i, hi, rfl⟩ c hc
    exact hchildren i hi c hc
  exact hu.keeps hstep ⟨i, hi, rfl⟩

/-- All values of a family of trees are in a set if the values at the roots are
and the children of members are members. -/
theorem all_of_family {ι : Type} {f : ι → Tree α} {P : ι → Prop}
    (hvalue : ∀ i, P i → (f i).value ∈ S)
    (hchildren : ∀ i, P i → ∀ c ∈ (f i).children, ∃ j, P j ∧ f j = c)
    {i : ι} (hi : P i) : (f i).All S := by
  intro u hu
  obtain ⟨j, hj, rfl⟩ := reaches_of_family hchildren hi hu
  exact hvalue j hj

theorem all_leaf {v : α} (hv : v ∈ S) : (leaf v).All S := by
  refine all_of_family (P := (· ∈ S)) (fun v hv => hv) (fun v _ c hc => ?_) hv
  simp at hc

/-- A set that is closed under shrinking holds everything that its members
shrink to. -/
theorem all_unfold {shrink : α → Row α} (hS : ∀ v ∈ S, ∀ c ∈ (shrink v).toList, c ∈ S) {v : α}
    (hv : v ∈ S) : (unfold shrink v).All S := by
  refine all_of_family (P := (· ∈ S)) (fun v hv => hv) (fun v hv c hc => ?_) hv
  rw [children_unfold] at hc
  obtain ⟨w, hw, rfl⟩ := List.mem_map.1 hc
  exact ⟨w, hS v hv w hw, rfl⟩

theorem All.map (h : t.All S) (f : α → β) : (t.map f).All (f '' S) := by
  refine all_of_family (f := Tree.map f) (P := fun t => t.All S)
    (fun t ht => Set.mem_image_of_mem f ht.root) (fun t ht c hc => ?_) h
  rw [children_map] at hc
  obtain ⟨u, hu, rfl⟩ := List.mem_map.1 hc
  exact ⟨u, ht.child hu, rfl⟩

theorem All.prune {p : α → Bool} (h : t.All S) (hp : p t.value) :
    (t.prune p).All {v | v ∈ S ∧ p v} := by
  refine all_of_family (f := Tree.prune p) (P := fun t => t.All S ∧ p t.value)
    (fun t ht => ?_) (fun t ht c hc => ?_) ⟨h, hp⟩
  · exact ⟨ht.1.root, ht.2⟩
  rw [children_prune] at hc
  obtain ⟨u, hu, rfl⟩ := List.mem_map.1 hc
  obtain ⟨hu, hpu⟩ := List.mem_filter.1 hu
  exact ⟨u, ⟨ht.1.child hu, hpu⟩, rfl⟩

theorem all_product_nil : (Nodes.product .nil).All Set.univ :=
  fun _ _ => trivial

/-- Below a row either its first tree goes down or the product of the others does. -/
theorem mem_children_product_cons {types : List Type} {ts : Nodes Tree types}
    {d : Tree (Tuple (α :: types))} (hd : d ∈ (Nodes.cons t ts).product.children) :
    (∃ c ∈ t.children, (Nodes.cons c ts).product = d) ∨
      ∃ ws, ws.product ∈ ts.product.children ∧ (Nodes.cons t ws).product = d := by
  rw [Nodes.children_product] at hd ⊢
  obtain ⟨us, hus, rfl⟩ := List.mem_map.1 hd
  rw [Nodes.toList_slots_cons] at hus
  rcases List.mem_append.1 hus with hus | hus
  · obtain ⟨c, hc, rfl⟩ := List.mem_map.1 hus
    exact .inl ⟨c, hc, rfl⟩
  · obtain ⟨ws, hws, rfl⟩ := List.mem_map.1 hus
    exact .inr ⟨ws, List.mem_map_of_mem hws, rfl⟩

theorem All.product_cons {types : List Type} {T : Set (Tuple types)} {ts : Nodes Tree types}
    (ht : t.All S) (hts : ts.product.All T) :
    (Nodes.cons t ts).product.All {v | v.1 ∈ S ∧ v.2 ∈ T} := by
  refine all_of_family (f := fun i : Tree α × Nodes Tree types => (Nodes.cons i.1 i.2).product)
    (P := fun i => i.1.All S ∧ i.2.product.All T) (fun i hi => ?_)
    (fun i hi c hc => ?_) (i := (t, ts)) ⟨ht, hts⟩
  · have hrest := hi.2.root
    rw [Nodes.value_product] at hrest ⊢
    exact ⟨hi.1.root, hrest⟩
  rcases mem_children_product_cons hc with ⟨w, hw, rfl⟩ | ⟨ws, hws, rfl⟩
  · exact ⟨(w, i.2), ⟨hi.1.child hw, hi.2⟩, rfl⟩
  · exact ⟨(i.1, ws), ⟨hi.1, hi.2.child hws⟩, rfl⟩

theorem All.optional (h : t.All S) : t.optional.All {o | ∀ v ∈ o, v ∈ S} := by
  -- The leaf of nothing at all is a member of the family too.
  refine all_of_family (f := fun i : Option (Tree α) => i.elim (leaf none) Tree.optional)
    (P := fun i => ∀ t ∈ i, t.All S) (fun i hi => ?_) (fun i hi c hc => ?_) (i := some t) ?_
  · cases i with
    | none => simp
    | some t => simpa using (hi t rfl).root
  · cases i with
    | none => simp at hc
    | some t =>
      rw [Option.elim_some, children_optional] at hc
      rcases List.mem_cons.1 hc with rfl | hc
      · exact ⟨none, by simp, rfl⟩
      · obtain ⟨u, hu, rfl⟩ := List.mem_map.1 hc
        exact ⟨some u, by simpa using (hi t rfl).child hu, rfl⟩
  · simpa using h

theorem all_list {ts : List (Tree α)} {min max : Nat}
    (hts : ts ∈ listsOf {t | Tree.All S t} min max) : (list ts min).All (listsOf S min max) := by
  refine all_of_family (f := (list · min)) (P := (· ∈ listsOf {t | Tree.All S t} min max))
    (fun ts hts => ?_) (fun ts hts c hc => ?_) hts
  · rw [value_list]
    refine ⟨by simpa using hts.1, fun v hv => ?_⟩
    obtain ⟨t, ht, rfl⟩ := List.mem_map.1 hv
    exact All.root (hts.2 t ht)
  · rw [children_list] at hc
    obtain ⟨us, hus, rfl⟩ := List.mem_map.1 hc
    refine ⟨us, ?_, rfl⟩
    rcases mem_cutsAndSlots.1 hus with ⟨cut, hcut, rfl⟩ | hus
    · exact listsOf_cut hts hcut
    · obtain ⟨i, hi, u, hu, rfl⟩ := mem_slots.1 hus
      exact listsOf_set hts i (All.child (hts.2 _ (List.getElem_mem hi)) hu)

theorem all_sequence {ts : List (Tree α)} {Ss : List (Set α)}
    (h : List.Forall₂ (fun t S => Tree.All S t) ts Ss) : (sequence ts).All (product Ss) := by
  refine all_of_family (P := fun ts => List.Forall₂ (fun t S => Tree.All S t) ts Ss)
    (fun ts h => ?_) (fun ts h c hc => ?_) h
  · rw [value_sequence]
    exact List.forall₂_map_left_iff.2 (h.imp fun _ _ ht => ht.root)
  · rw [children_sequence] at hc
    obtain ⟨us, hus, rfl⟩ := List.mem_map.1 hc
    exact ⟨us, forall₂_of_mem_slots (R := fun t S => Tree.All S t)
      (fun _ _ ht _ hc => ht.child hc) h hus, rfl⟩

end Tree

end PropertyTesting
