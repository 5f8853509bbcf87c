import Mathlib.Order.GameAdd
import PropertyTesting.Proofs.Tree.All
import PropertyTesting.Proofs.Tree.Lists

/-!
Ways down in trees. A tree is grounded if every way down ends, and distinct if no value
occurs again below itself. Every operation on trees keeps both. For groundedness one says
which states of an operation come below which, and that no state is above endlessly many;
for distinctness one says what lies below a child and sees that the value of the parent
does not.
-/

namespace PropertyTesting

open Branching (slots mem_slots Reaches Way)

namespace Tree

variable {α β : Type} {t c : Tree α}

/-- Every way down from the root ends. -/
def Grounded (t : Tree α) : Prop :=
  Acc (fun c t : Tree α => c ∈ t.children) t

theorem Grounded.no_endless_way (h : t.Grounded) :
    ¬∃ way : Nat → Tree α, way 0 = t ∧ ∀ n, way (n + 1) ∈ (way n).children := by
  induction h with
  | intro t _ ih =>
    rintro ⟨way, rfl, hway⟩
    exact ih (way 1) (hway 0) ⟨fun n => way (n + 1), rfl, fun n => hway (n + 1)⟩

/-- A member of a family of trees is grounded if the children of members are members that
come before them, and no endless row of members comes before this one. -/
theorem grounded_of_family {ι : Type} {r : ι → ι → Prop} {f : ι → Tree α}
    (hchildren : ∀ i, ∀ c ∈ (f i).children, ∃ j, r j i ∧ f j = c) {i : ι} (hi : Acc r i) :
    (f i).Grounded :=
  hi.of_fibration f fun i c => hchildren i c

theorem grounded_leaf (v : α) : (leaf v).Grounded :=
  .intro _ fun c hc => by simp at hc

/-- Shrinking ends if it lowers a measure. -/
theorem grounded_unfold {shrink : α → Row α} {μ : α → Nat}
    (hμ : ∀ v, ∀ c ∈ (shrink v).toList, μ c < μ v) (v : α) : (unfold shrink v).Grounded := by
  refine grounded_of_family (fun v c hc => ?_) ((measure μ).wf.apply v)
  rw [children_unfold] at hc
  obtain ⟨w, hw, rfl⟩ := List.mem_map.1 hc
  exact ⟨w, hμ v w hw, rfl⟩

theorem Grounded.map (h : t.Grounded) (f : α → β) : (t.map f).Grounded := by
  refine grounded_of_family (f := Tree.map f) (fun t c hc => ?_) h
  rw [children_map] at hc
  exact List.mem_map.1 hc

theorem Grounded.prune (h : t.Grounded) (p : α → Bool) : (t.prune p).Grounded := by
  refine grounded_of_family (f := Tree.prune p) (fun t c hc => ?_) h
  rw [children_prune] at hc
  obtain ⟨u, hu, rfl⟩ := List.mem_map.1 hc
  exact ⟨u, (List.mem_filter.1 hu).1, rfl⟩

theorem Grounded.optional (h : t.Grounded) : t.optional.Grounded := by
  induction h with
  | intro t _ ih =>
    refine .intro _ fun c hc => ?_
    rw [children_optional] at hc
    rcases List.mem_cons.1 hc with rfl | hc
    · exact grounded_leaf none
    · obtain ⟨u, hu, rfl⟩ := List.mem_map.1 hc
      exact ih u hu

theorem grounded_product_nil : (Nodes.product .nil).Grounded :=
  .intro _ fun c hc => by
    rw [Nodes.children_product] at hc
    cases hc

theorem Grounded.product_cons {types : List Type} {ts : Nodes Tree types} (ht : t.Grounded)
    (hts : ts.product.Grounded) : (Nodes.cons t ts).product.Grounded := by
  -- One step goes down in the first column or in the others, never in both.
  have hpair : Acc (InvImage (Prod.GameAdd (fun c t : Tree α => c ∈ t.children)
      fun c t : Tree (Tuple types) => c ∈ t.children) fun i => (i.1, i.2.product)) (t, ts) :=
    InvImage.accessible _ (ht.prod_gameAdd hts)
  refine grounded_of_family (f := fun i => (Nodes.cons i.1 i.2).product)
    (fun i c hc => ?_) (i := (t, ts)) hpair
  rcases mem_children_product_cons hc with ⟨w, hw, rfl⟩ | ⟨ws, hws, rfl⟩
  · exact ⟨(w, i.2), .fst hw, rfl⟩
  · exact ⟨(i.1, ws), .snd hws, rfl⟩

/-- Slots of grounded trees can be taken only so often. -/
theorem acc_slots {ts : List (Tree α)} (h : ∀ t ∈ ts, t.Grounded) :
    Acc (fun us ts : List (Tree α) => us ∈ (slots ts).toList) ts := by
  induction ts with
  | nil => exact .intro _ fun us hus => by simp at hus
  | cons t ts ih =>
    obtain ⟨ht, hts⟩ := List.forall_mem_cons.1 h
    have hpair := Acc.prod_gameAdd ht (ih hts)
    refine hpair.of_fibration (fun i => i.1 :: i.2) fun i us hus => ?_
    rw [Branching.toList_slots_cons] at hus
    rcases List.mem_append.1 hus with hus | hus
    · obtain ⟨c, hc, rfl⟩ := List.mem_map.1 hus
      exact ⟨(c, i.2), .fst hc, rfl⟩
    · obtain ⟨ws, hws, rfl⟩ := List.mem_map.1 hus
      exact ⟨(i.1, ws), .snd hws, rfl⟩

theorem grounded_sequence {ts : List (Tree α)} (h : ∀ t ∈ ts, t.Grounded) :
    (sequence ts).Grounded := by
  refine grounded_of_family (fun ts c hc => ?_) (acc_slots h)
  rw [children_sequence] at hc
  exact List.mem_map.1 hc

section Pass

variable {P : Tree α → Prop} {ts us : List (Tree α)} {least : Nat}

/-- What holds of all trees of a list and passes on to children holds of all of them after
a slot is taken. -/
theorem forall_mem_slots (hP : ∀ t, P t → ∀ c ∈ t.children, P c) (h : ∀ t ∈ ts, P t)
    (hus : us ∈ (slots ts).toList) : ∀ u ∈ us, P u := by
  obtain ⟨i, hi, c, hc, rfl⟩ := mem_slots.1 hus
  intro u hu
  rcases List.mem_or_eq_of_mem_set hu with hu | rfl
  · exact h u hu
  · exact hP _ (h _ (List.getElem_mem hi)) _ hc

theorem forall_mem_cutsAndSlots (hP : ∀ t, P t → ∀ c ∈ t.children, P c) (h : ∀ t ∈ ts, P t)
    (hus : us ∈ (cutsAndSlots least ts).toList) : ∀ u ∈ us, P u := by
  rcases mem_cutsAndSlots.1 hus with ⟨cut, hcut, rfl⟩ | hus
  · exact fun u hu => h u ((Cut.apply_sublist hcut).subset hu)
  · exact forall_mem_slots hP h hus

end Pass

/-- A list of grounded trees can be cut and its slots can be taken only so often. -/
theorem acc_cutsAndSlots {ts : List (Tree α)} (h : ∀ t ∈ ts, t.Grounded) (least : Nat) :
    Acc (fun us ts : List (Tree α) => us ∈ (cutsAndSlots least ts).toList) ts := by
  -- A cut makes the list shorter; the slots in between keep its length and go down.
  induction hlen : ts.length using Nat.strong_induction_on generalizing ts with
  | _ n ihcut =>
    have hslots := acc_slots h
    induction hslots with
    | intro ts _ ihslot =>
      refine .intro _ fun us hus => ?_
      have hground := forall_mem_cutsAndSlots (fun t ht c hc => ht.inv hc) h hus
      rcases mem_cutsAndSlots.1 hus with ⟨cut, hcut, rfl⟩ | hus
      · exact ihcut _ (hlen ▸ Cut.length_apply_lt hcut) hground rfl
      · refine ihslot us hus hground ?_
        obtain ⟨i, hi, c, -, rfl⟩ := mem_slots.1 hus
        rw [List.length_set, hlen]

theorem grounded_list {ts : List (Tree α)} (h : ∀ t ∈ ts, t.Grounded) (least : Nat) :
    (list ts least).Grounded := by
  refine grounded_of_family (f := (list · least)) (fun ts c hc => ?_) (acc_cutsAndSlots h least)
  rw [children_list] at hc
  exact List.mem_map.1 hc

/-- No value occurs again below itself. -/
def Distinct (t : Tree α) : Prop :=
  ∀ u, Reaches t u → ∀ c ∈ u.children, c.All {v | v ≠ u.value}

theorem Distinct.below (h : t.Distinct) (hc : c ∈ t.children) : c.All {v | v ≠ t.value} :=
  h t (.refl t) c hc

theorem Distinct.child (h : t.Distinct) (hc : c ∈ t.children) : c.Distinct :=
  fun u hu => h u (.below hc hu)

/-- On a way down in a distinct tree no value is met twice. -/
theorem Distinct.nodup_way (h : t.Distinct) {ts : List (Tree α)} {u : Tree α}
    (hway : Way t ts u) : (ts.map value).Nodup := by
  -- Nor is any of the values that were met to be met below.
  suffices (ts.map value).Nodup ∧ ∀ s ∈ ts, ∀ c ∈ u.children, c.All {v | v ≠ s.value} from
    this.1
  induction hway with
  | here => exact ⟨by simp, by simpa using fun c hc => h.below hc⟩
  | @down ts u c hway hc ih =>
    obtain ⟨hnodup, hbelow⟩ := ih
    constructor
    · rw [List.map_append, List.nodup_append]
      refine ⟨hnodup, by simp, fun v hv w hw => ?_⟩
      obtain ⟨s, hs, rfl⟩ := List.mem_map.1 hv
      obtain rfl : w = c.value := by simpa using hw
      exact (hbelow s hs c hc).root.symm
    · intro s hs d hd
      rcases List.mem_append.1 hs with hs | hs
      · exact (hbelow s hs c hc).child hd
      · obtain rfl := List.mem_singleton.1 hs
        exact h s (hway.down hc).reaches d hd

/-- A family of trees is distinct if the children of members are members below which the
value of the parent does not occur. -/
theorem distinct_of_family {ι : Type} {f : ι → Tree α} {P : ι → Prop}
    (hchildren : ∀ i, P i → ∀ c ∈ (f i).children,
      c.All {v | v ≠ (f i).value} ∧ ∃ j, P j ∧ f j = c) {i : ι} (hi : P i) : (f i).Distinct := by
  intro u hu
  obtain ⟨j, hj, rfl⟩ := reaches_of_family (fun i hi c hc => (hchildren i hi c hc).2) hi hu
  exact fun c hc => (hchildren j hj c hc).1

theorem distinct_leaf (v : α) : (leaf v).Distinct :=
  distinct_of_family (f := leaf) (P := fun _ => True) (fun v _ c hc => by simp at hc) trivial

/-- No value comes back when shrinking lowers a measure. -/
theorem distinct_unfold {shrink : α → Row α} {μ : α → Nat}
    (hμ : ∀ v, ∀ c ∈ (shrink v).toList, μ c < μ v) (v : α) : (unfold shrink v).Distinct := by
  refine distinct_of_family (P := fun _ => True) (fun v _ c hc => ?_) trivial
  rw [children_unfold] at hc
  obtain ⟨w, hw, rfl⟩ := List.mem_map.1 hc
  refine ⟨?_, w, trivial, rfl⟩
  have hlower : (unfold shrink w).All {x | μ x < μ v} :=
    all_unfold (fun x hx y hy => Nat.lt_trans (hμ x y hy) hx) (hμ v w hw)
  refine hlower.mono fun x hx => ?_
  rintro rfl
  exact Nat.lt_irrefl _ hx

/-- A function that takes no two values of the tree to one. -/
theorem Distinct.map (h : t.Distinct) {S : Set α} (hS : t.All S) {f : α → β}
    (hf : S.InjOn f) : (t.map f).Distinct := by
  refine distinct_of_family (f := Tree.map f) (P := fun t => t.Distinct ∧ t.All S)
    (fun t ht c hc => ?_) ⟨h, hS⟩
  rw [children_map] at hc
  obtain ⟨u, hu, rfl⟩ := List.mem_map.1 hc
  refine ⟨?_, u, ⟨ht.1.child hu, ht.2.child hu⟩, rfl⟩
  have hboth : u.All {v | v ∈ S ∧ v ≠ t.value} := fun w hw =>
    ⟨ht.2.child hu w hw, ht.1.below hu w hw⟩
  refine (hboth.map f).mono ?_
  rintro _ ⟨v, ⟨hv, hne⟩, rfl⟩ heq
  exact hne (hf hv ht.2.root heq)

theorem Distinct.prune (h : t.Distinct) {p : α → Bool} : (t.prune p).Distinct := by
  refine distinct_of_family (f := Tree.prune p) (P := Distinct) (fun t ht c hc => ?_) h
  rw [children_prune] at hc
  obtain ⟨u, hu, rfl⟩ := List.mem_map.1 hc
  obtain ⟨hu, hpu⟩ := List.mem_filter.1 hu
  exact ⟨((ht.below hu).prune hpu).mono fun v hv => hv.1, u, ht.child hu, rfl⟩

theorem Distinct.optional (h : t.Distinct) : t.optional.Distinct := by
  refine distinct_of_family (f := fun i : Option (Tree α) => i.elim (leaf none) Tree.optional)
    (P := fun i => ∀ t ∈ i, t.Distinct) (fun i hi c hc => ?_) (i := some t) (by simpa using h)
  cases i with
  | none => simp at hc
  | some t =>
    have ht := hi t rfl
    rw [Option.elim_some, children_optional] at hc
    rcases List.mem_cons.1 hc with rfl | hc
    · exact ⟨all_leaf (by simp), none, by simp, rfl⟩
    · obtain ⟨u, hu, rfl⟩ := List.mem_map.1 hc
      refine ⟨(ht.below hu).optional.mono fun o ho => ?_, some u, ?_, rfl⟩
      · rintro rfl
        exact ho t.value rfl rfl
      · simpa using ht.child hu

theorem distinct_product_nil : (Nodes.product .nil).Distinct :=
  distinct_of_family (ι := Unit) (f := fun _ => Nodes.product .nil) (P := fun _ => True)
    (i := ())
    (fun _ _ c hc => by
      rw [Nodes.children_product] at hc
      cases hc)
    trivial

theorem Distinct.product_cons {types : List Type} {ts : Nodes Tree types} (ht : t.Distinct)
    (hts : ts.product.Distinct) : (Nodes.cons t ts).product.Distinct := by
  refine distinct_of_family (f := fun i : Tree α × Nodes Tree types => (Nodes.cons i.1 i.2).product)
    (P := fun i => i.1.Distinct ∧ i.2.product.Distinct) (fun i hi c hc => ?_) (i := (t, ts))
    ⟨ht, hts⟩
  have hvalue : (Nodes.cons i.1 i.2).product.value = (i.1.value, i.2.product.value) := by
    rw [Nodes.value_product, Nodes.value_product]
    rfl
  -- The column that has moved is one in which the two rows differ.
  rcases mem_children_product_cons hc with ⟨w, hw, rfl⟩ | ⟨ws, hws, rfl⟩
  · have hrest : i.2.product.All Set.univ := fun _ _ => trivial
    refine ⟨((hi.1.below hw).product_cons hrest).mono fun v hv heq => ?_, (w, i.2),
      ⟨hi.1.child hw, hi.2⟩, rfl⟩
    exact hv.1 (congrArg Prod.fst (heq.trans hvalue))
  · have hfirst : i.1.All Set.univ := fun _ _ => trivial
    refine ⟨(hfirst.product_cons (hi.2.below hws)).mono fun v hv heq => ?_, (i.1, ws),
      ⟨hi.1, hi.2.child hws⟩, rfl⟩
    exact hv.2 (congrArg Prod.snd (heq.trans hvalue))

/-- Once a tree of a list has gone down, its old value is not in its place again. -/
theorem ne_of_forall₂_set {ts : List (Tree α)} {i : Nat} (hi : i < ts.length)
    (hc : c.All {v | v ≠ ts[i].value}) {w : List α} (hw : List.Forall₂ Holds (ts.set i c) w) :
    w ≠ ts.map value := by
  rintro rfl
  obtain ⟨-, hget⟩ := List.forall₂_iff_get.1 hw
  obtain ⟨u, hu, hvalue⟩ := hget i (by simpa using hi) (by simpa using hi)
  simp only [List.get_eq_getElem, List.getElem_set_self, List.getElem_map] at hu hvalue
  exact hc u hu hvalue

theorem distinct_sequence {ts : List (Tree α)} (h : ∀ t ∈ ts, t.Distinct) :
    (sequence ts).Distinct := by
  refine distinct_of_family (P := fun ts : List (Tree α) => ∀ t ∈ ts, t.Distinct)
    (fun ts h c hc => ?_) h
  rw [children_sequence] at hc
  obtain ⟨us, hus, rfl⟩ := List.mem_map.1 hc
  have hdistinct := forall_mem_slots (fun t ht c hc => Distinct.child ht hc) h hus
  refine ⟨fun u hu => ?_, us, hdistinct, rfl⟩
  obtain ⟨i, hi, d, hd, rfl⟩ := mem_slots.1 hus
  rw [value_sequence]
  have hbelow := (h _ (List.getElem_mem hi)).below hd
  exact ne_of_forall₂_set hi hbelow (holds_sequence.1 ⟨u, hu, rfl⟩)

theorem distinct_list {ts : List (Tree α)} (h : ∀ t ∈ ts, t.Distinct) (least : Nat) :
    (list ts least).Distinct := by
  refine distinct_of_family (f := (list · least))
    (P := fun ts : List (Tree α) => ∀ t ∈ ts, t.Distinct) (fun ts h c hc => ?_) h
  rw [children_list] at hc
  obtain ⟨us, hus, rfl⟩ := List.mem_map.1 hc
  have hdistinct := forall_mem_cutsAndSlots (fun t ht c hc => Distinct.child ht hc) h hus
  refine ⟨fun u hu => ?_, us, hdistinct, rfl⟩
  obtain ⟨ss, hsub, -, hholds⟩ := holds_list.1 ⟨u, hu, rfl⟩
  rw [value_list]
  intro heq
  have hlen : ss.length = ts.length := by simpa [heq] using hholds.length_eq
  rcases mem_cutsAndSlots.1 hus with ⟨cut, hcut, rfl⟩ | hus
  · -- Nothing below a cut is as long as the list that was cut.
    have hle := hsub.length_le
    have hlt := Cut.length_apply_lt hcut
    omega
  · obtain ⟨i, hi, d, hd, rfl⟩ := mem_slots.1 hus
    obtain rfl := hsub.eq_of_length (by simpa using hlen)
    have hbelow := (h _ (List.getElem_mem hi)).below hd
    exact ne_of_forall₂_set hi hbelow hholds heq

end Tree

end PropertyTesting
