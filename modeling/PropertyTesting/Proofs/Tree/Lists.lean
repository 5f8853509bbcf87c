import PropertyTesting.Proofs.Shrink.Cut
import PropertyTesting.Proofs.Tree.Reach
import PropertyTesting.Tree.Product

/-!
Which lists are reached in a tree that is made from a list of trees. Where one slot
shrinks at a time, all combinations of what the trees hold are. Where elements may also be
removed, whatever order the removals and the shrinks come in, what is reached is what one
gets by leaving out elements first and then going down in the trees of those that are
left; and every list of that form is reached, as long as no more elements are left out
than may be.
-/

namespace PropertyTesting

open Branching

namespace Branching

variable {τ α : Type} [Branching τ α]

theorem forall₂_reaches_of_mem_slots {ts us vs : List τ} (h : List.Forall₂ Reaches ts us)
    (hvs : vs ∈ (slots us).toList) : List.Forall₂ Reaches ts vs :=
  List.Forall₂.flip (forall₂_of_mem_slots (R := flip Reaches) (fun _ _ hu _ hc => hu.down hc)
    h.flip hvs)

/-- Where every slot may be taken, the nodes of a list can go down together. -/
theorem reaches_of_forall₂ {υ γ : Type} [Branching υ γ] {f : List τ → υ}
    (hf : ∀ ts, ∀ us ∈ (slots ts).toList, f us ∈ children (f ts)) {ts us : List τ}
    (h : List.Forall₂ Reaches ts us) : Reaches (f ts) (f us) := by
  induction h generalizing f with
  | nil => rfl
  | @cons t u ts us ht _ ih =>
    have hfirst : Reaches (f (t :: ts)) (f (u :: ts)) := by
      refine Relation.ReflTransGen.lift (fun t => f (t :: ts)) (fun t c hc => ?_) _ _ ht
      exact hf _ _ (by simp [hc])
    refine hfirst.trans (ih (f := fun ts => f (u :: ts)) fun ts us hus => ?_)
    exact hf _ _ (by simp [hus])

end Branching

namespace Tree

variable {α : Type} {ts ss : List (Tree α)} {least : Nat} {u : Tree (List α)}

/-- The nodes of a product are the products of nodes. -/
theorem reaches_sequence :
    Reaches (sequence ts) u ↔ ∃ us, List.Forall₂ Reaches ts us ∧ sequence us = u := by
  constructor
  · intro h
    induction h with
    | refl => exact ⟨ts, List.forall₂_same.2 fun t _ => .refl t, rfl⟩
    | tail _ hc ih =>
      obtain ⟨us, hdown, rfl⟩ := ih
      rw [children_tree, children_sequence] at hc
      obtain ⟨vs, hvs, rfl⟩ := List.mem_map.1 hc
      exact ⟨vs, forall₂_reaches_of_mem_slots hdown hvs, rfl⟩
  · rintro ⟨us, hdown, rfl⟩
    refine reaches_of_forall₂ (fun ts us hus => ?_) hdown
    rw [children_tree, children_sequence]
    exact List.mem_map_of_mem hus

/-- Of a list that is longer than a sublist of it some element can be left out. -/
theorem exists_sublist_eraseIdx {β : Type} {xs ys : List β} (h : xs.Sublist ys)
    (hlt : xs.length < ys.length) : ∃ i < ys.length, xs.Sublist (ys.eraseIdx i) := by
  induction h with
  | slnil => simp at hlt
  | cons y h ih => exact ⟨0, by simp, by simpa using h⟩
  | cons_cons y h ih =>
    obtain ⟨i, hi, hsub⟩ := ih (by simpa using hlt)
    exact ⟨i + 1, by simpa using hi, by simpa using hsub⟩

/-- Elements can be left out one after the other. -/
theorem reaches_list_of_sublist (hsub : ss.Sublist ts) (hleast : min ts.length least ≤ ss.length) :
    Reaches (list ts least) (list ss least) := by
  obtain ⟨n, hn⟩ := Nat.exists_eq_add_of_le hsub.length_le
  induction n generalizing ts with
  | zero => rw [hsub.eq_of_length hn.symm]
  | succ n ih =>
    obtain ⟨i, hi, hsub'⟩ := exists_sublist_eraseIdx hsub (by omega)
    have hcut : list (ts.eraseIdx i) least ∈ (list ts least).children := by
      have hmem : ⟨i, i + 1⟩ ∈ Cut.all ts.length least := Cut.single_mem_all (by omega) hi
      rw [children_list]
      exact List.mem_map_of_mem (mem_cutsAndSlots.2 (.inl ⟨_, hmem, Cut.apply_single i ts⟩))
    have hlen : (ts.eraseIdx i).length = ss.length + n := by
      rw [List.length_eraseIdx_of_lt hi]
      omega
    exact .below hcut (ih hsub' (by omega) hlen)

theorem forall₂_apply {β γ : Type} {R : β → γ → Prop} {xs : List β} {ys : List γ}
    (h : List.Forall₂ R xs ys) (c : Cut) : List.Forall₂ R (c.apply xs) (c.apply ys) :=
  List.rel_append (List.forall₂_take _ h) (List.forall₂_drop _ h)

/-- Elements are left out and the others go down. -/
theorem reaches_list :
    Reaches (list ts least) u ↔
      ∃ ss us, ss.Sublist ts ∧ min ts.length least ≤ ss.length ∧ List.Forall₂ Reaches ss us ∧
        list us least = u := by
  constructor
  · intro h
    induction h with
    | refl => exact ⟨ts, ts, .refl ts, by omega, List.forall₂_same.2 fun t _ => .refl t, rfl⟩
    | tail _ hc ih =>
      obtain ⟨ss, us, hsub, hleast, hdown, rfl⟩ := ih
      rw [children_tree, children_list] at hc
      obtain ⟨vs, hvs, rfl⟩ := List.mem_map.1 hc
      rcases mem_cutsAndSlots.1 hvs with ⟨c, hcut, rfl⟩ | hvs
      · -- What is cut out is left out from the start.
        rw [← hdown.length_eq] at hcut
        refine ⟨c.apply ss, c.apply us, (Cut.apply_sublist hcut).trans hsub, ?_,
          forall₂_apply hdown c, rfl⟩
        have := Cut.min_le_length_apply hcut
        omega
      · exact ⟨ss, vs, hsub, hleast, forall₂_reaches_of_mem_slots hdown hvs, rfl⟩
  · rintro ⟨ss, us, hsub, hleast, hdown, rfl⟩
    refine (reaches_list_of_sublist hsub hleast).trans ?_
    refine reaches_of_forall₂ (f := (list · least)) (fun ts us hus => ?_) hdown
    rw [children_tree, children_list]
    exact List.mem_map_of_mem (mem_cutsAndSlots.2 (.inr hus))

/-- A value is that of a node which a path leads to. -/
def Holds (t : Tree α) (v : α) : Prop :=
  ∃ u, Reaches t u ∧ u.value = v

theorem forall₂_holds {w : List α} :
    List.Forall₂ Holds ts w ↔ ∃ us, List.Forall₂ Reaches ts us ∧ us.map value = w := by
  constructor
  · intro h
    induction h with
    | nil => exact ⟨[], .nil, rfl⟩
    | cons ht _ ih =>
      obtain ⟨u, hu, rfl⟩ := ht
      obtain ⟨us, hus, rfl⟩ := ih
      exact ⟨u :: us, .cons hu hus, rfl⟩
  · rintro ⟨us, hus, rfl⟩
    exact List.forall₂_map_right_iff.2 (hus.imp fun t u hu => ⟨u, hu, rfl⟩)

theorem holds_sequence {w : List α} : (sequence ts).Holds w ↔ List.Forall₂ Holds ts w := by
  rw [forall₂_holds]
  constructor
  · rintro ⟨u, hu, rfl⟩
    obtain ⟨us, hdown, rfl⟩ := reaches_sequence.1 hu
    exact ⟨us, hdown, (value_sequence us).symm⟩
  · rintro ⟨us, hdown, rfl⟩
    exact ⟨_, reaches_sequence.2 ⟨us, hdown, rfl⟩, value_sequence us⟩

theorem holds_list {w : List α} :
    (list ts least).Holds w ↔
      ∃ ss, ss.Sublist ts ∧ min ts.length least ≤ ss.length ∧ List.Forall₂ Holds ss w := by
  constructor
  · rintro ⟨u, hu, rfl⟩
    obtain ⟨ss, us, hsub, hleast, hdown, rfl⟩ := reaches_list.1 hu
    exact ⟨ss, hsub, hleast, forall₂_holds.2 ⟨us, hdown, (value_list us least).symm⟩⟩
  · rintro ⟨ss, hsub, hleast, hw⟩
    obtain ⟨us, hdown, rfl⟩ := forall₂_holds.1 hw
    exact ⟨_, reaches_list.2 ⟨ss, us, hsub, hleast, hdown, rfl⟩, value_list us least⟩

/-- The lists that are reached from a list of trees are those of values which are reached
in some of the trees, in the order of the trees. As many of them are left out as may be:
no list that is reached is shorter than that. -/
theorem reached_lists (ts : List (Tree α)) (least : Nat) :
    (∀ w, (list ts least).Holds w ↔
      ∃ places : List (Fin ts.length), places.Pairwise (· < ·) ∧
        min ts.length least ≤ places.length ∧
        List.Forall₂ (fun i v => ts[i].Holds v) places w) ∧
    ∀ w, (list ts least).Holds w → min ts.length least ≤ w.length := by
  constructor
  · intro w
    rw [holds_list]
    constructor
    · rintro ⟨ss, hsub, hleast, hw⟩
      obtain ⟨places, rfl, hlt⟩ := List.sublist_eq_map_getElem hsub
      rw [List.length_map] at hleast
      exact ⟨places, hlt, hleast, List.forall₂_map_left_iff.1 hw⟩
    · rintro ⟨places, hlt, hleast, hw⟩
      refine ⟨places.map (ts[·]), List.map_getElem_sublist hlt, ?_, List.forall₂_map_left_iff.2 hw⟩
      rwa [List.length_map]
  · intro w hw
    obtain ⟨ss, -, hleast, hss⟩ := holds_list.1 hw
    rwa [← hss.length_eq]

/-- Of two trees the first is left out and the second goes down. -/
theorem reached_lists_second :
    (list [leaf 5, node 3 [leaf 1]] 1).Holds [1] ∧
      min [leaf 5, node 3 [leaf 1]].length 1 ≤ [1].length :=
  have h := reached_lists [leaf 5, node 3 [leaf 1]] 1
  have hone : (node 3 [leaf 1]).Holds 1 := ⟨leaf 1, .below (by simp) (.refl _), rfl⟩
  have hlist : (list [leaf 5, node 3 [leaf 1]] 1).Holds [1] :=
    (h.1 [1]).2 ⟨[1], by decide, by decide, .cons hone .nil⟩
  ⟨hlist, h.2 [1] hlist⟩

end Tree

end PropertyTesting
