import Mathlib.Data.Set.Function
import Mathlib.Order.Monotone.Defs
import PropertyTesting.Proofs.Tree.Reach

/-!
What a filter leaves of a tree. A node of the filtered tree is one that the
filter accepts together with all nodes above it, so the paths of the filtered
tree are the paths of the tree along accepted nodes. Positions shift on every
level, since rejected siblings are gone: `Tree.narrow` says to where, and
`Tree.bijOn_narrow` that no path is lost or made up.
-/

namespace PropertyTesting

section Rank

variable {β : Type} {q : β → Bool} {xs : List β} {x : β} {i j k : Nat}

/-- How many of the elements before a position are accepted. -/
def rank (q : β → Bool) (xs : List β) (i : Nat) : Nat :=
  (xs.take i).countP q

/-- An accepted element stands, among the accepted ones, at the position that
its rank says. -/
theorem getElem?_filter_rank (hx : xs[i]? = some x) (hq : q x) :
    (xs.filter q)[rank q xs i]? = some x := by
  obtain ⟨hi, rfl⟩ := List.getElem?_eq_some_iff.1 hx
  have hsplit : xs.filter q = (xs.take i).filter q ++ xs[i] :: (xs.drop (i + 1)).filter q := by
    conv_lhs => rw [← List.take_append_drop i xs, List.drop_eq_getElem_cons hi]
    rw [List.filter_append, List.filter_cons_of_pos hq]
  rw [hsplit, rank, List.countP_eq_length_filter, List.getElem?_append_right (Nat.le_refl _),
    Nat.sub_self, List.getElem?_cons_zero]

theorem rank_lt (hij : i < j) (hx : xs[i]? = some x) (hq : q x) : rank q xs i < rank q xs j := by
  obtain ⟨hi, rfl⟩ := List.getElem?_eq_some_iff.1 hx
  have hsucc : rank q xs (i + 1) = rank q xs i + 1 := by
    rw [rank, List.take_succ_eq_append_getElem hi, List.countP_append, List.countP_singleton,
      if_pos hq, rank]
  have hle : rank q xs (i + 1) ≤ rank q xs j := (List.take_sublist_take_left hij).countP_le
  omega

/-- What is left after filtering has a position of which it keeps the rank. -/
theorem exists_rank (hx : (xs.filter q)[k]? = some x) :
    ∃ i, xs[i]? = some x ∧ q x ∧ rank q xs i = k := by
  induction xs generalizing k with
  | nil => simp at hx
  | cons y xs ih =>
    cases hy : q y with
    | false =>
      rw [List.filter_cons_of_neg (by simp [hy])] at hx
      obtain ⟨i, hi, hq, rfl⟩ := ih hx
      exact ⟨i + 1, hi, hq, by simp [rank, hy]⟩
    | true =>
      rw [List.filter_cons_of_pos hy] at hx
      cases k with
      | zero =>
        obtain rfl : y = x := by simpa using hx
        exact ⟨0, rfl, hy, rfl⟩
      | succ k =>
        obtain ⟨i, hi, hq, rfl⟩ := ih (k := k) (by simpa using hx)
        exact ⟨i + 1, hi, hq, by simp [rank, hy]⟩

end Rank

/-- A path leads to the same node wherever the count of its places begins. -/
theorem Branching.descend_eq_ok {τ α : Type} [Branching τ α] {path : List Nat} {t u : τ}
    {place : Nat} (h : descend path t place = .ok u) (place' : Nat) :
    descend path t place' = .ok u := by
  induction path generalizing t place place' with
  | nil => exact h
  | cons i path ih =>
    rw [descend_cons] at h ⊢
    cases hi : (children t)[i]? with
    | none => simp [hi] at h
    | some c =>
      rw [hi] at h
      exact ih h (place' + 1)

namespace Tree

variable {α : Type} {p q : α → Bool} {t u c : Tree α} {path path' : List Nat} {i j : Nat}

@[simp] theorem descend_nil (t : Tree α) : t.descend [] = .ok t :=
  descend_eq [] t

theorem descend_cons_eq_ok :
    t.descend (i :: path) = .ok u ↔ ∃ c, t.children[i]? = some c ∧ c.descend path = .ok u := by
  rw [descend_eq, Branching.descend_cons, Branching.children_tree]
  cases t.children[i]? with
  | none => simp
  | some c =>
    simp only [Option.some.injEq, exists_eq_left', descend_eq]
    exact ⟨fun h => Branching.descend_eq_ok h 0, fun h => Branching.descend_eq_ok h 1⟩

theorem descend_cons_of_child (hc : t.children[i]? = some c) :
    t.descend (i :: path) = .ok u ↔ c.descend path = .ok u := by
  simp [descend_cons_eq_ok, hc]

/-- The paths that lead to a node. -/
def paths (t : Tree α) : Set (List Nat) :=
  {path | ∃ u, t.descend path = .ok u}

/-- The paths that lead to a node and on which every node is accepted, the root
and the end included. -/
def acceptedPaths (p : α → Bool) (t : Tree α) : Set (List Nat) :=
  {path | ∀ start, start <+: path → ∃ u, t.descend start = .ok u ∧ p u.value}

theorem nil_mem_acceptedPaths : [] ∈ t.acceptedPaths p ↔ p t.value := by
  simp [acceptedPaths]

theorem root_of_accepted (h : path ∈ t.acceptedPaths p) : p t.value :=
  nil_mem_acceptedPaths.1 fun _ hstart => h _ (hstart.trans List.nil_prefix)

theorem cons_mem_acceptedPaths :
    i :: path ∈ t.acceptedPaths p ↔
      p t.value ∧ ∃ c, t.children[i]? = some c ∧ path ∈ c.acceptedPaths p := by
  constructor
  · intro h
    obtain ⟨u, hu, -⟩ := h _ (List.prefix_refl _)
    obtain ⟨c, hc, -⟩ := descend_cons_eq_ok.1 hu
    refine ⟨root_of_accepted h, c, hc, fun start hstart => ?_⟩
    obtain ⟨v, hv, hpv⟩ := h (i :: start) (List.cons_prefix_cons.2 ⟨rfl, hstart⟩)
    exact ⟨v, (descend_cons_of_child hc).1 hv, hpv⟩
  · rintro ⟨hp, c, hc, h⟩ start hstart
    cases start with
    | nil => exact ⟨t, descend_nil t, hp⟩
    | cons j start =>
      obtain ⟨rfl, hrest⟩ := List.cons_prefix_cons.1 hstart
      obtain ⟨u, hu, hpu⟩ := h start hrest
      exact ⟨u, descend_cons_eq_ok.2 ⟨c, hc, hu⟩, hpu⟩

theorem cons_mem_acceptedPaths_of_child (hc : t.children[i]? = some c) :
    i :: path ∈ t.acceptedPaths p ↔ p t.value ∧ path ∈ c.acceptedPaths p := by
  simp [cons_mem_acceptedPaths, hc]

/-- The path in the filtered tree that goes where a path along accepted nodes
goes. On each level it has the rank of a child in the place of its position. -/
def narrow (p : α → Bool) (t : Tree α) : List Nat → List Nat
  | [] => []
  | i :: path =>
    match t.children[i]? with
    | some c => rank (p ·.value) t.children i :: narrow p c path
    | none => []

theorem narrow_cons (hc : t.children[i]? = some c) :
    narrow p t (i :: path) = rank (p ·.value) t.children i :: narrow p c path := by
  simp [narrow, hc]

/-- The children of a filtered tree, found by the rank of those that they come
from. -/
theorem children_prune_rank (hc : t.children[i]? = some c) (hp : p c.value) :
    (t.prune p).children[rank (p ·.value) t.children i]? = some (c.prune p) := by
  rw [children_prune, List.getElem?_map, getElem?_filter_rank hc hp, Option.map_some]

theorem exists_child_of_prune {d : Tree α} {k : Nat} (hd : (t.prune p).children[k]? = some d) :
    ∃ i c, t.children[i]? = some c ∧ p c.value ∧ rank (p ·.value) t.children i = k ∧
      c.prune p = d := by
  rw [children_prune, List.getElem?_map, Option.map_eq_some_iff] at hd
  obtain ⟨c, hc, rfl⟩ := hd
  obtain ⟨i, hi, hp, hk⟩ := exists_rank hc
  exact ⟨i, c, hi, hp, hk, rfl⟩

/-- A path along accepted nodes goes on in the filtered tree, to what the filter
leaves of the tree at its end. -/
theorem descend_narrow (h : path ∈ t.acceptedPaths p) (hu : t.descend path = .ok u) :
    (t.prune p).descend (narrow p t path) = .ok (u.prune p) := by
  induction path generalizing t with
  | nil =>
    obtain rfl := Except.ok.inj ((descend_nil t).symm.trans hu)
    exact descend_nil _
  | cons i path ih =>
    obtain ⟨-, c, hc, hpath⟩ := cons_mem_acceptedPaths.1 h
    rw [narrow_cons hc, descend_cons_of_child (children_prune_rank hc (root_of_accepted hpath))]
    exact ih hpath ((descend_cons_of_child hc).1 hu)

/-- Every path of the filtered tree comes from one along accepted nodes. -/
theorem exists_narrow {d : Tree α} (hroot : p t.value) (hd : (t.prune p).descend path = .ok d) :
    ∃ start ∈ t.acceptedPaths p, narrow p t start = path := by
  induction path generalizing t with
  | nil => exact ⟨[], nil_mem_acceptedPaths.2 hroot, rfl⟩
  | cons k path ih =>
    obtain ⟨_, hk, hd⟩ := descend_cons_eq_ok.1 hd
    obtain ⟨i, c, hc, hp, rfl, rfl⟩ := exists_child_of_prune hk
    obtain ⟨start, hstart, rfl⟩ := ih hp hd
    exact ⟨i :: start, cons_mem_acceptedPaths.2 ⟨hroot, c, hc, hstart⟩, narrow_cons hc⟩

theorem narrow_injOn (p : α → Bool) (t : Tree α) : Set.InjOn (narrow p t) (t.acceptedPaths p) := by
  intro path hpath path' hpath' heq
  induction path generalizing t path' with
  | nil =>
    cases path' with
    | nil => rfl
    | cons j path' =>
      obtain ⟨-, c, hc, -⟩ := cons_mem_acceptedPaths.1 hpath'
      rw [narrow_cons hc] at heq
      cases heq
  | cons i path ih =>
    obtain ⟨-, c, hc, hpath⟩ := cons_mem_acceptedPaths.1 hpath
    rw [narrow_cons hc] at heq
    cases path' with
    | nil => cases heq
    | cons j path' =>
      obtain ⟨-, d, hd, hpath'⟩ := cons_mem_acceptedPaths.1 hpath'
      rw [narrow_cons hd, List.cons.injEq] at heq
      obtain ⟨hrank, heq⟩ := heq
      -- Different accepted children differ in rank.
      rcases Nat.lt_trichotomy i j with hij | rfl | hji
      · have := rank_lt (q := fun c => p c.value) hij hc (root_of_accepted hpath)
        omega
      · obtain rfl := Option.some.inj (hc.symm.trans hd)
        rw [ih c hpath hpath' heq]
      · have := rank_lt (q := fun c => p c.value) hji hd (root_of_accepted hpath')
        omega

/-- The paths of a filtered tree are those along accepted nodes, each once. -/
theorem bijOn_narrow (hroot : p t.value) :
    Set.BijOn (narrow p t) (t.acceptedPaths p) (t.prune p).paths := by
  refine ⟨fun path hpath => ?_, narrow_injOn p t, fun path hpath => ?_⟩
  · obtain ⟨u, hu, -⟩ := hpath path (List.prefix_refl _)
    exact ⟨_, descend_narrow hpath hu⟩
  · obtain ⟨d, hd⟩ := hpath
    exact exists_narrow hroot hd

/-- Siblings go to siblings, in the order in which they stood. -/
theorem narrow_siblings (p : α → Bool) (t : Tree α) (path : List Nat) :
    ∃ place : Nat → Nat, StrictMonoOn place {i | path ++ [i] ∈ t.acceptedPaths p} ∧
      ∀ i, path ++ [i] ∈ t.acceptedPaths p →
        narrow p t (path ++ [i]) = narrow p t path ++ [place i] := by
  induction path generalizing t with
  | nil =>
    refine ⟨rank (p ·.value) t.children, fun i hi j hj hij => ?_, fun i hi => ?_⟩
    · obtain ⟨-, c, hc, hpath⟩ := cons_mem_acceptedPaths.1 hi
      exact rank_lt hij hc (root_of_accepted hpath)
    · obtain ⟨-, c, hc, -⟩ := cons_mem_acceptedPaths.1 hi
      exact narrow_cons hc
  | cons k path ih =>
    cases hc : t.children[k]? with
    | none =>
      -- The path leads nowhere, and so nothing is said.
      have hnone : ∀ i, k :: path ++ [i] ∉ t.acceptedPaths p := by
        intro i hi
        obtain ⟨-, c, hc', -⟩ := cons_mem_acceptedPaths.1 hi
        cases hc.symm.trans hc'
      exact ⟨id, fun i hi => absurd hi (hnone i), fun i hi => absurd hi (hnone i)⟩
    | some c =>
      obtain ⟨place, hmono, hplace⟩ := ih c
      have hbelow : ∀ i, k :: path ++ [i] ∈ t.acceptedPaths p → path ++ [i] ∈ c.acceptedPaths p :=
        fun i hi => ((cons_mem_acceptedPaths_of_child hc).1 hi).2
      refine ⟨place, fun i hi j hj => hmono (hbelow i hi) (hbelow j hj), fun i hi => ?_⟩
      rw [List.cons_append, narrow_cons hc, narrow_cons hc, hplace i (hbelow i hi),
        List.cons_append]

/-- What two filters leave is left by one that accepts what both accept. -/
theorem prune_prune (p q : α → Bool) (t : Tree α) :
    (t.prune p).prune q = t.prune fun v => p v && q v :=
  ext_family (fun t => t.children.filter fun c => p c.value && q c.value)
    (f := fun t => (t.prune p).prune q) (g := fun t => t.prune fun v => p v && q v)
    (fun _ => rfl) (fun t => by simp [List.filter_map, Function.comp_def, Bool.and_comm])
    (fun t => by simp) t

theorem filter_eq_none : t.filter p = none ↔ p t.value = false := by
  cases h : p t.value <;> simp [filter, h]

theorem filter_eq_some : t.filter p = some u ↔ p t.value ∧ t.prune p = u := by
  cases h : p t.value <;> simp [filter, h]

theorem filter_filter (p q : α → Bool) (t : Tree α) :
    (t.filter p).bind (filter q) = t.filter fun v => p v && q v := by
  cases hp : p t.value <;> cases hq : q t.value <;> simp [filter, hp, hq, prune_prune]

/-- A filter leaves nothing of a tree if it rejects the root. Otherwise the
paths of what it leaves are, one for one, those of the tree on which it accepts
every node; they lead to the same values, and siblings stay siblings in the same
order. To filter the rest once more is to filter once by both. -/
theorem filter_paths (p : α → Bool) (t : Tree α) :
    (t.filter p = none ↔ p t.value = false) ∧
    (∀ u, t.filter p = some u →
      Set.BijOn (narrow p t) (t.acceptedPaths p) u.paths ∧
      (∀ path ∈ t.acceptedPaths p,
        (u.descend (narrow p t path)).map value = (t.descend path).map value) ∧
      narrow p t [] = [] ∧
      ∀ path, ∃ place : Nat → Nat, StrictMonoOn place {i | path ++ [i] ∈ t.acceptedPaths p} ∧
        ∀ i, path ++ [i] ∈ t.acceptedPaths p →
          narrow p t (path ++ [i]) = narrow p t path ++ [place i]) ∧
    ∀ q, (t.filter p).bind (filter q) = t.filter fun v => p v && q v := by
  refine ⟨filter_eq_none, fun u hu => ?_, fun q => filter_filter p q t⟩
  obtain ⟨hroot, rfl⟩ := filter_eq_some.1 hu
  refine ⟨bijOn_narrow hroot, fun path hpath => ?_, rfl, narrow_siblings p t⟩
  obtain ⟨u, hu, -⟩ := hpath path (List.prefix_refl _)
  rw [descend_narrow hpath hu, hu]
  rfl

/-- Of the even numbers below an even number, the second and the third child
become the first and the second. -/
theorem filter_paths_even :
    let even : Nat → Bool := (· % 2 == 0)
    let t : Tree Nat := node 8 [leaf 3, node 6 [leaf 5, leaf 4, leaf 2]]
    ∃ u, t.filter even = some u ∧ [1, 2] ∈ t.acceptedPaths even ∧ [0, 1] ∈ u.paths ∧
      (u.descend [0, 1]).map value = (t.descend [1, 2]).map value ∧
      ∃ k l, k < l ∧ narrow even t [1, 1] = [0, k] ∧ narrow even t [1, 2] = [0, l] := by
  intro even t
  have hu : t.filter even = some (t.prune even) := filter_eq_some.2 ⟨by simp [t, even], rfl⟩
  have hfirst : [1] ++ [1] ∈ t.acceptedPaths even := by
    simp [cons_mem_acceptedPaths, nil_mem_acceptedPaths, t, even]
  have hsecond : [1] ++ [2] ∈ t.acceptedPaths even := by
    simp [cons_mem_acceptedPaths, nil_mem_acceptedPaths, t, even]
  have hchild : narrow even t [1] = [0] := by simp [narrow, rank, t, even]
  have hnarrow : narrow even t [1, 2] = [0, 1] := by simp [narrow, rank, t, even]
  obtain ⟨hbij, hvalue, -, hsiblings⟩ := (filter_paths even t).2.1 _ hu
  obtain ⟨place, hmono, hplace⟩ := hsiblings [1]
  rw [hchild] at hplace
  exact ⟨_, hu, hsecond, hnarrow ▸ hbij.mapsTo hsecond, hnarrow ▸ hvalue _ hsecond, place 1,
    place 2, hmono hfirst hsecond (by decide), hplace 1 hfirst, hplace 2 hsecond⟩

end Tree

end PropertyTesting
