import PropertyTesting.Proofs.Minimize.Soundness
import PropertyTesting.Proofs.Shrink.Cut
import PropertyTesting.Proofs.Shrink.Integer
import PropertyTesting.Tree.Product

/-!
Lists of integers shrink until no single change makes them fail. The predicate
may be any. Each child of a node weighs less than the node, so no value is met
again further down, and a child that the search did not go to has passed.
-/

namespace PropertyTesting

open Branching Inspect PropertyTesting.Shrink

/-- The tree of a list of integers that shrink towards a destination. -/
def Tree.integers (d : Int64) (min : Nat) (xs : List Int64) : Tree (List Int64) :=
  .list (xs.map (Tree.integer d)) min

namespace Tree

variable {d : Int64} {min : Nat} {xs : List Int64}

@[simp] theorem value_integers : (integers d min xs).value = xs := by
  simp [integers, Function.comp_def]

/-- The children of a list lose a stretch of it or have a candidate in the
place of one element. -/
theorem mem_children_integers {u : Tree (List Int64)} :
    u ∈ (integers d min xs).children ↔
      (∃ c ∈ Cut.all xs.length min, u = integers d min (c.apply xs)) ∨
        ∃ (i : Nat) (h : i < xs.length), ∃ c ∈ long d xs[i], u = integers d min (xs.set i c) := by
  simp only [integers, children_list, toList_cutsAndSlots, List.mem_map, List.mem_append,
    List.length_map, mem_slots, children_tree, List.getElem_map, children_integer]
  constructor
  · rintro ⟨ts, ⟨c, hc, rfl⟩ | ⟨i, hi, t, ⟨c, hc, rfl⟩, rfl⟩, rfl⟩
    · exact .inl ⟨c, hc, by rw [Cut.map_apply]⟩
    · exact .inr ⟨i, hi, c, hc, by rw [List.map_set]⟩
  · rintro (⟨c, hc, rfl⟩ | ⟨i, hi, c, hc, rfl⟩)
    · exact ⟨_, .inl ⟨c, hc, rfl⟩, by rw [Cut.map_apply]⟩
    · exact ⟨_, .inr ⟨i, hi, _, ⟨c, hc, rfl⟩, rfl⟩, by rw [List.map_set]⟩

end Tree

/-- The weight of a list: every element counts, and its distance from the
destination. -/
def weight (d : Int64) : List Int64 → Nat
  | [] => 0
  | x :: xs => gap d x + 1 + weight d xs

section Weight

variable {d : Int64} {xs ys : List Int64}

theorem weight_le_of_sublist (h : ys.Sublist xs) : weight d ys ≤ weight d xs := by
  induction h with
  | slnil => exact Nat.le_refl _
  | cons x _ ih => exact Nat.le_trans ih (Nat.le_add_left _ _)
  | cons_cons x _ ih => exact Nat.add_le_add_left ih _

theorem weight_lt_of_sublist (h : ys.Sublist xs) (hlen : ys.length < xs.length) :
    weight d ys < weight d xs := by
  induction h with
  | slnil => simp at hlen
  | @cons ys xs x h ih =>
    have := weight_le_of_sublist (d := d) h
    simp only [weight, List.length_cons] at *
    omega
  | cons_cons x _ ih => exact Nat.add_lt_add_left (ih (Nat.lt_of_succ_lt_succ hlen)) _

theorem weight_set_lt {i : Nat} (hi : i < xs.length) {c : Int64} (hc : gap d c < gap d xs[i]) :
    weight d (xs.set i c) < weight d xs := by
  induction xs generalizing i with
  | nil => simp at hi
  | cons x xs ih =>
    cases i with
    | zero =>
      rw [List.getElem_cons_zero] at hc
      simp only [weight, List.set_cons_zero]
      omega
    | succ i => exact Nat.add_lt_add_left (ih (Nat.lt_of_succ_lt_succ hi) (by simpa using hc)) _

end Weight

/-- The nodes of a tree of lists whose elements lie between `lo` and `hi`. -/
def ListNode (lo hi : Int64) (min : Nat) (t : Tree (List Int64)) : Prop :=
  ∃ xs, t = .integers (destination lo hi) min xs ∧ (∀ x ∈ xs, lo ≤ x ∧ x ≤ hi) ∧
    min ≤ xs.length

namespace ListNode

variable {lo hi : Int64} {min : Nat} {t u : Tree (List Int64)}

theorem child (h : ListNode lo hi min t) (hu : u ∈ children t) : ListNode lo hi min u := by
  obtain ⟨xs, rfl, hxs, hlen⟩ := h
  rcases Tree.mem_children_integers.1 hu with ⟨c, hc, rfl⟩ | ⟨i, hi, c, hc, rfl⟩
  · exact ⟨_, rfl, fun x hx => hxs x ((Cut.apply_sublist hc).subset hx),
      Cut.min_le_length_apply hc⟩
  · refine ⟨_, rfl, fun x hx => ?_, by simpa using hlen⟩
    rcases List.mem_or_eq_of_mem_set hx with hx | rfl
    · exact hxs x hx
    · exact mem_long_range (hxs _ (List.getElem_mem hi)) hc

theorem weight_child (h : ListNode lo hi min t) (hu : u ∈ children t) :
    weight (destination lo hi) u.value < weight (destination lo hi) t.value := by
  obtain ⟨xs, rfl, -⟩ := h
  rcases Tree.mem_children_integers.1 hu with ⟨c, hc, rfl⟩ | ⟨i, hi, c, hc, rfl⟩
  · rw [Tree.value_integers, Tree.value_integers]
    exact weight_lt_of_sublist (Cut.apply_sublist hc) (Cut.length_apply_lt hc)
  · rw [Tree.value_integers, Tree.value_integers]
    exact weight_set_lt hi (gap_lt_of_mem_long hc)

end ListNode

/-- A list that fails, and of which every simpler list that differs in one
element only passes. -/
structure OneMinimal (check : List Int64 → Verdict) (d : Int64) (min : Nat)
    (xs : List Int64) : Prop where
  failing : check xs ≠ .pass
  min_le : min ≤ xs.length
  erase : min < xs.length → ∀ i < xs.length, check (xs.eraseIdx i) = .pass
  set_dest : ∀ (i : Nat) (h : i < xs.length), xs[i] ≠ d → check (xs.set i d) = .pass
  set_nearer : ∀ (i : Nat) (h : i < xs.length), xs[i] ≠ d →
    check (xs.set i (nearer d xs[i])) = .pass

/-- A list whose children all pass is minimal. -/
theorem OneMinimal.of_children {check : List Int64 → Verdict} {lo hi : Int64} {min : Nat}
    {xs : List Int64} (hxs : ∀ x ∈ xs, lo ≤ x ∧ x ≤ hi) (hmin : min ≤ xs.length)
    (hfail : check xs ≠ .pass)
    (hpass : ∀ u ∈ (Tree.integers (destination lo hi) min xs).children, check u.value = .pass) :
    OneMinimal check (destination lo hi) min xs where
  failing := hfail
  min_le := hmin
  erase hlt i hi := by
    have := hpass _ (Tree.mem_children_integers.2 (.inl ⟨_, Cut.single_mem_all hlt hi, rfl⟩))
    simpa [Cut.apply_single] using this
  set_dest i hi hne := by
    have := hpass _ (Tree.mem_children_integers.2 (.inr ⟨i, hi, _, dest_mem_long hne.symm, rfl⟩))
    simpa using this
  set_nearer i hi hne := by
    obtain ⟨hlo, hhi⟩ := hxs _ (List.getElem_mem hi)
    have hmem := nearer_mem_long (destination_sameSide hlo hhi) hne.symm
    have := hpass _ (Tree.mem_children_integers.2 (.inr ⟨i, hi, _, hmem, rfl⟩))
    simpa using this

/-- Unless the limit of steps ended the search, a list of integers from `lo` to
`hi` is minimized to one that no single change makes simpler. -/
theorem Tree.minimize_list {lo hi : Int64} {min : Nat} {xs : List Int64}
    (hxs : ∀ x ∈ xs, lo ≤ x ∧ x ≤ hi) (hmin : min ≤ xs.length)
    {check : List Int64 → Verdict} (hfail : check xs ≠ .pass) (limit : Nat) :
    let d := destination lo hi
    let m := (Tree.list (xs.map (Tree.integer d)) min).minimize limit check
    m.exhausted = false → OneMinimal check d min m.value := by
  intro d m hexhausted
  have hcheck := ReadsForm.of_injective inspect_list_int64_injective check
  have hnode : ListNode lo hi min (Tree.integers d min xs) := ⟨xs, rfl, hxs, hmin⟩
  have hkeeps : ∀ t, ListNode lo hi min t → ∀ u ∈ children t, ListNode lo hi min u :=
    fun _ ht _ hu => ht.child hu
  have hlighter : ∀ t, ListNode lo hi min t → ∀ u ∈ children t,
      weight d (Branching.value u) < weight d (Branching.value t) :=
    fun _ ht _ hu => ht.weight_child hu
  have hroot : check (Branching.value (integers d min xs)) ≠ .pass := by
    simpa [Branching.value] using hfail
  obtain ⟨u, q, exhausted, hend, hsound, hpass⟩ := Minimize.minimize_sound limit hcheck hroot
  obtain ⟨ts, hway, hsub⟩ := hsound.way
  have hm : m = q.finish u.value exhausted := (Tree.minimize_eq ..).trans hend
  obtain ⟨ys, rfl, hys, hlen⟩ := hway.reaches.keeps hkeeps hnode
  have hvalue : m.value = ys := by
    rw [hm]
    show (integers d min ys).value = ys
    exact value_integers
  have hfalse : exhausted = false := by
    rw [hm] at hexhausted
    exact hexhausted
  rw [hvalue]
  refine .of_children hys hlen (by simpa [Branching.value] using hsound.value_failing hcheck)
    fun c hc => ?_
  rcases hpass hfalse c hc with ⟨v, hv, hform⟩ | hpass
  · -- A value accepted before would weigh at least as much as the node does.
    obtain ⟨w, hw, rfl⟩ := List.mem_map.1 (hsub.subset (List.mem_reverse.2 hv))
    have hle := hway.measure_le hkeeps hlighter hnode w hw
    have hlt := hlighter _ (hway.reaches.keeps hkeeps hnode) c hc
    rw [inspect_list_int64_injective hform] at hle
    omega
  · exact hpass

/-- A limit above the weight of a list is never what ends the search. -/
theorem Tree.minimize_list_exhausted {lo hi : Int64} {min : Nat} {xs : List Int64}
    (hxs : ∀ x ∈ xs, lo ≤ x ∧ x ≤ hi) (hmin : min ≤ xs.length) (check : List Int64 → Verdict)
    {limit : Nat} (hlimit : weight (destination lo hi) xs < limit) :
    ((Tree.integers (destination lo hi) min xs).minimize limit check).exhausted = false := by
  rw [Tree.minimize_eq]
  refine Minimize.search_complete (I := ListNode lo hi min) (fun _ ht _ hu => ht.child hu)
    (fun _ ht _ hu => ht.weight_child hu) limit limit ⟨xs, rfl, hxs, hmin⟩ ?_
  rwa [value_integers]

/-- A list that fails as long as it holds two numbers of at least ten. -/
theorem Tree.minimize_list_pair :
    let d := destination (-100) 100
    let xs : List Int64 := [3, 40, -7, 12, 99]
    let check : List Int64 → Verdict := fun ys =>
      if (ys.filter (10 ≤ ·)).length < 2 then .pass else .fail none
    let m := (Tree.list (xs.map (Tree.integer d)) 1).minimize 1000 check
    (∀ x ∈ xs, -100 ≤ x ∧ x ≤ 100) ∧ 1 ≤ xs.length ∧ check xs ≠ .pass ∧
      m.exhausted = false ∧ OneMinimal check d 1 m.value :=
  have hxs : ∀ x ∈ ([3, 40, -7, 12, 99] : List Int64), -100 ≤ x ∧ x ≤ 100 := by
    simp only [List.forall_mem_cons, List.not_mem_nil, false_implies, implies_true, and_true]
    decide
  have hcomplete := Tree.minimize_list_exhausted hxs (by decide) _ (by decide)
  ⟨hxs, by decide, by decide, hcomplete,
    Tree.minimize_list hxs (by decide) (by decide) 1000 hcomplete⟩

end PropertyTesting
