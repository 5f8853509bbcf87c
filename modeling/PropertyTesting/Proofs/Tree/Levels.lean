import Mathlib.Data.List.FinRange
import Mathlib.Data.List.Perm.Basic
import Mathlib.Data.Set.Card
import PropertyTesting.Proofs.Tree.Filter
import PropertyTesting.Tree.Walk

/-!
Trees level by level. In the line of a breadth-first walk the rest of one level
stands before the children of those nodes of the level that the walk is done
with, and so a walk that comes to the end of a level has the next level in line:
`Branching.listing_append`. What a walk lists is therefore read off the levels,
`Tree.shrinks_eq_take`. A depth-first walk meets the same nodes in another order.
-/

namespace PropertyTesting

namespace Branching

variable {τ α : Type} [Branching τ α]

/-- The nodes a number of steps below a node, from left to right. -/
def level : Nat → τ → List τ
  | 0, t => [t]
  | k + 1, t => (children t).flatMap (level k)

/-- The values of the first levels below a root, level by level. -/
def levels (depth : Nat) (t : τ) : List α :=
  (List.range depth).flatMap fun k => (level (k + 1) t).map value

/-- How a breadth-first listing goes on that nothing but its limit ends: from the
nodes in line and the values listed so far, to the list that comes of it. -/
inductive BreadthFirst (limit : Nat) : List τ → List α → List α → Prop where
  | emptied {listed : List α} : BreadthFirst limit [] listed listed
  | full {t : τ} {ts : List τ} {listed : List α} : limit ≤ listed.length →
      BreadthFirst limit (t :: ts) listed listed
  | turn {t : τ} {ts : List τ} {listed result : List α} : listed.length < limit →
      BreadthFirst limit (ts ++ children t) (listed ++ [value t]) result →
      BreadthFirst limit (t :: ts) listed result

/-- What a breadth-first walk lists from a line of nodes. -/
def listing (n : Nat) (ts : List τ) : List α :=
  walk n (.ofRow (.ofList ts))

@[simp] theorem listing_zero (ts : List τ) : listing 0 ts = [] := rfl

@[simp] theorem listing_nil (n : Nat) : listing n ([] : List τ) = [] :=
  walk_nil n

@[simp] theorem listing_cons (n : Nat) (t : τ) (ts : List τ) :
    listing (n + 1) (t :: ts) = value t :: listing n (ts ++ children t) := by
  rw [listing, Row.ofList, walk_cons]
  exact congrArg _ (walk_congr n (by simp))

theorem shrinks_eq_listing (n : Nat) (t : τ) : shrinks n t = listing n (children t) :=
  walk_congr n (by simp)

/-- A listing ends, and in one way only. -/
theorem breadthFirst_iff {limit : Nat} {ts : List τ} {listed result : List α} :
    BreadthFirst limit ts listed result ↔
      result = listed ++ listing (limit - listed.length) ts := by
  constructor
  · intro h
    induction h with
    | emptied => simp
    | @full t ts listed hfull => simp [Nat.sub_eq_zero_of_le hfull]
    | @turn t ts listed result hlt _ ih =>
      obtain ⟨n, hn⟩ : ∃ n, limit - listed.length = n + 1 := ⟨limit - listed.length - 1, by omega⟩
      rw [ih, hn, listing_cons, List.length_append, List.length_singleton, ← Nat.sub_sub, hn,
        Nat.add_sub_cancel, List.append_assoc, List.singleton_append]
  · rintro rfl
    -- Each turn takes up one of the values that the limit leaves.
    obtain ⟨n, hn⟩ : ∃ n, limit - listed.length = n := ⟨_, rfl⟩
    rw [hn]
    induction n generalizing ts listed with
    | zero =>
      rw [listing_zero, List.append_nil]
      cases ts with
      | nil => exact .emptied
      | cons t ts => exact .full (by omega)
    | succ n ih =>
      cases ts with
      | nil =>
        rw [listing_nil, List.append_nil]
        exact .emptied
      | cons t ts =>
        rw [listing_cons, List.append_cons]
        exact .turn (by omega) (ih (by rw [List.length_append, List.length_singleton]; omega))

/-- A walk lists the front of its line, and then has the back of the line before
it and behind that the children of the front. -/
theorem listing_append (n : Nat) (ts us : List τ) :
    listing n (ts ++ us) =
      (ts.map value).take n ++ listing (n - ts.length) (us ++ ts.flatMap children) := by
  induction ts generalizing n us with
  | nil => simp
  | cons t ts ih =>
    cases n with
    | zero => simp
    | succ n =>
      rw [List.cons_append, listing_cons, List.append_assoc, ih, List.map_cons, List.take_succ_cons,
        List.length_cons, Nat.add_sub_add_right, List.flatMap_cons, List.append_assoc,
        List.cons_append]

/-- A walk that starts with a level lists it and all levels below it. -/
theorem listing_eq_take {n depth : Nat} (h : n ≤ depth) (ts : List τ) :
    listing n ts =
      ((List.range depth).flatMap fun k => (ts.flatMap (level k)).map value).take n := by
  induction depth generalizing n ts with
  | zero =>
    obtain rfl : n = 0 := by omega
    rw [listing_zero, List.take_zero]
  | succ depth ih =>
    cases ts with
    | nil => simp
    | cons t ts =>
      have hfirst : (t :: ts).flatMap (level 0) = t :: ts := List.flatMap_singleton' _
      have hbelow : ∀ k, (t :: ts).flatMap (level (k + 1)) =
          ((t :: ts).flatMap children).flatMap (level k) := by
        intro k
        rw [List.flatMap_assoc]
        rfl
      rw [List.range_succ_eq_map, List.flatMap_cons, List.flatMap_map, hfirst, List.take_append,
        List.length_map]
      simp only [hbelow]
      rw [← ih (by rw [List.length_cons]; omega)]
      simpa using listing_append n (t :: ts) []

theorem listing_children_eq_take {n depth : Nat} (h : n ≤ depth) (t : τ) :
    listing n (children t) = (levels depth t).take n :=
  listing_eq_take h (children t)

/-- Two rounds can be gone through in either order. -/
theorem flatMap_swap_perm {β γ δ : Type} (xs : List β) (ys : List γ) (f : β → γ → List δ) :
    (xs.flatMap fun x => ys.flatMap (f x)).Perm (ys.flatMap fun y => xs.flatMap (f · y)) := by
  induction xs with
  | nil => simp
  | cons x xs ih =>
    simp only [List.flatMap_cons]
    exact (ih.append_left _).trans (List.flatMap_append_perm ys (f x) _)

/-- The values down to a depth are those of the root and of the levels below. -/
theorem expand_perm (depth : Nat) (t : τ) : (expand depth t).Perm (value t :: levels depth t) := by
  induction depth generalizing t with
  | zero => exact .refl _
  | succ depth ih =>
    have hlevels : ∀ c : τ, value c :: levels depth c =
        (List.range (depth + 1)).flatMap fun k => (level k c).map value := by
      intro c
      rw [List.range_succ_eq_map, List.flatMap_cons, List.flatMap_map]
      rfl
    have hswap : levels (depth + 1) t = (List.range (depth + 1)).flatMap fun k =>
        (children t).flatMap fun c => (level k c).map value := by
      simp only [levels, level, List.map_flatMap]
    rw [expand_succ, hswap]
    refine .cons _ ((List.Perm.flatMap_left _ fun c _ => ih c).trans ?_)
    simp only [hlevels]
    exact flatMap_swap_perm _ _ _

theorem count_succ (depth : Nat) (t : τ) :
    count (depth + 1) t = 1 + ((children t).map (count depth)).sum := by
  have hsum : ∀ (n : Nat) (ts : List τ),
      ts.foldl (fun n u => n + count depth u) n = n + (ts.map (count depth)).sum := by
    intro n ts
    induction ts generalizing n with
    | nil => rfl
    | cons t ts ih => rw [List.foldl_cons, ih, List.map_cons, List.sum_cons, Nat.add_assoc]
  rw [count, ← Row.foldl_toList, toList_row, hsum]

/-- The first value that a depth-first walk meets is that of the root. -/
theorem expand_eq_cons (depth : Nat) (t : τ) :
    expand depth t = value t :: (expand depth t).tail := by
  cases depth with
  | zero => rfl
  | succ depth => rw [expand_succ, List.tail_cons]

/-- As many values are met down to a depth as there are nodes. -/
theorem length_expand (depth : Nat) (t : τ) : (expand depth t).length = count depth t := by
  induction depth generalizing t with
  | zero => rfl
  | succ depth ih =>
    rw [expand_succ, List.length_cons, List.length_flatMap, count_succ, Nat.add_comm]
    simp only [ih]

/-- The paths to the nodes down to a depth, in depth-first order. -/
def pathsTo : Nat → τ → List (List Nat)
  | 0, _ => [[]]
  | depth + 1, t =>
    [] :: (List.finRange (children t).length).flatMap fun i =>
      (pathsTo depth ((children t).get i)).map (i.val :: ·)

theorem length_pathsTo (depth : Nat) (t : τ) : (pathsTo depth t).length = count depth t := by
  induction depth generalizing t with
  | zero => rfl
  | succ depth ih =>
    have hbelow : ((children t).map (count depth)) =
        (List.finRange (children t).length).map fun i => count depth ((children t).get i) := by
      conv_lhs => rw [← List.map_get_finRange (children t), List.map_map]
      rfl
    simp only [pathsTo, List.length_cons, List.length_flatMap, List.length_map, ih]
    rw [count_succ, hbelow, Nat.add_comm]

theorem nodup_pathsTo (depth : Nat) (t : τ) : (pathsTo depth t).Nodup := by
  induction depth generalizing t with
  | zero => exact List.nodup_singleton _
  | succ depth ih =>
    rw [pathsTo, List.nodup_cons, List.nodup_flatMap]
    refine ⟨by simp, fun i _ => (ih _).map (List.cons_injective), ?_⟩
    refine (List.nodup_finRange _).imp fun {i j} hij path hi hj => hij ?_
    obtain ⟨start, -, rfl⟩ := List.mem_map.1 hi
    obtain ⟨_, -, heq⟩ := List.mem_map.1 hj
    exact Fin.ext (List.cons.inj heq).1.symm

end Branching

namespace Tree

open Branching

variable {α : Type} {t : Tree α} {depth N : Nat} {path start : List Nat}

theorem expand_eq (t : Tree α) (depth : Nat) : t.expand depth = Branching.expand depth t := by
  induction depth generalizing t with
  | zero => rfl
  | succ depth ih =>
    simp only [Tree.expand_succ, ih]
    exact (Branching.expand_succ depth t).symm

theorem count_eq (t : Tree α) (depth : Nat) : t.count depth = Branching.count depth t := by
  induction depth generalizing t with
  | zero => rfl
  | succ depth ih =>
    simp only [Tree.count_succ, ih]
    rw [Branching.count, ← Row.foldl_toList]
    rfl

theorem length_expand_eq_count (t : Tree α) (depth : Nat) :
    (t.expand depth).length = t.count depth := by
  rw [expand_eq, length_expand, count_eq]

/-- The values listed are the first of those that come level by level. -/
theorem shrinks_eq_take {n : Nat} (h : n ≤ depth) (t : Tree α) :
    t.shrinks n = (levels depth t).take n := by
  rw [shrinks_eq, shrinks_eq_listing, listing_children_eq_take h]

theorem shrinks_isPrefix {n m : Nat} (h : n ≤ m) (t : Tree α) : t.shrinks n <+: t.shrinks m := by
  rw [shrinks_eq_take h, shrinks_eq_take (Nat.le_refl m)]
  exact List.take_prefix_take_left h

@[simp] theorem nil_mem_paths : [] ∈ t.paths :=
  ⟨t, descend_nil t⟩

theorem cons_mem_paths {i : Nat} :
    i :: path ∈ t.paths ↔ ∃ c, t.children[i]? = some c ∧ path ∈ c.paths := by
  constructor
  · rintro ⟨u, hu⟩
    obtain ⟨c, hc, hu⟩ := descend_cons_eq_ok.1 hu
    exact ⟨c, hc, u, hu⟩
  · rintro ⟨c, hc, u, hu⟩
    exact ⟨u, descend_cons_eq_ok.2 ⟨c, hc, hu⟩⟩

theorem mem_paths_of_prefix (hpath : path ∈ t.paths) (hstart : start <+: path) :
    start ∈ t.paths := by
  induction start generalizing t path with
  | nil => exact nil_mem_paths
  | cons i start ih =>
    obtain ⟨rest, rfl⟩ := hstart
    obtain ⟨c, hc, hrest⟩ := cons_mem_paths.1 hpath
    exact cons_mem_paths.2 ⟨c, hc, ih hrest (List.prefix_append ..)⟩

theorem mem_pathsTo : path ∈ pathsTo depth t ↔ path.length ≤ depth ∧ path ∈ t.paths := by
  induction depth generalizing t path with
  | zero =>
    rw [pathsTo, List.mem_singleton, Nat.le_zero, List.length_eq_zero_iff]
    exact ⟨fun h => ⟨h, h ▸ nil_mem_paths⟩, And.left⟩
  | succ depth ih =>
    cases path with
    | nil => simp [pathsTo]
    | cons i path =>
      rw [cons_mem_paths, List.length_cons, Nat.add_le_add_iff_right]
      simp only [pathsTo, List.mem_cons, reduceCtorEq, false_or, List.mem_flatMap, List.mem_map,
        List.mem_finRange, true_and, ih]
      constructor
      · rintro ⟨i, path, ⟨hle, hpath⟩, heq⟩
        obtain ⟨rfl, rfl⟩ := List.cons.inj heq
        exact ⟨hle, _, List.getElem?_eq_getElem i.isLt, hpath⟩
      · rintro ⟨hle, c, hc, hpath⟩
        obtain ⟨hi, rfl⟩ := List.getElem?_eq_some_iff.1 hc
        exact ⟨⟨i, hi⟩, path, ⟨hle, hpath⟩, rfl⟩

/-- A tree has more nodes than any of its paths has steps. -/
theorem length_lt_of_mem_paths (h : t.paths.encard = N) (hpath : path ∈ t.paths) :
    path.length < N := by
  have hinj : Set.InjOn path.take (Finset.range (path.length + 1)) := by
    intro i hi j hj heq
    have hlen := congrArg List.length heq
    simp only [Finset.coe_range, Set.mem_Iio, List.length_take] at hi hj hlen
    omega
  have hsub : ((Finset.range (path.length + 1)).image path.take : Set (List Nat)) ⊆ t.paths := by
    intro start hstart
    obtain ⟨k, -, rfl⟩ := Finset.mem_image.1 hstart
    exact mem_paths_of_prefix hpath (List.take_prefix ..)
  have hcard := Set.encard_le_encard hsub
  rw [Set.encard_coe_eq_coe_finsetCard, Finset.card_image_of_injOn hinj, Finset.card_range, h]
    at hcard
  exact_mod_cast hcard

/-- A tree that ends at a depth has the nodes that are counted down to there. -/
theorem encard_paths (h : ∀ path ∈ t.paths, path.length ≤ depth) :
    t.paths.encard = t.count depth := by
  have hpaths : t.paths = (pathsTo depth t).toFinset := by
    ext path
    rw [Finset.mem_coe, List.mem_toFinset, mem_pathsTo]
    exact ⟨fun hpath => ⟨h path hpath, hpath⟩, And.right⟩
  rw [hpaths, Set.encard_coe_eq_coe_finsetCard, List.toFinset_card_of_nodup (nodup_pathsTo ..),
    length_pathsTo, count_eq]

/-- Both walks meet the nodes of a finite tree, each in its own order. -/
theorem shrinks_perm (h : t.paths.encard = N) : (t.shrinks N).Perm (t.expand N).tail := by
  have hcount : t.count N = N := by
    have hall := encard_paths fun path hpath => (length_lt_of_mem_paths h hpath).le
    exact_mod_cast hall.symm.trans h
  have hperm : ((t.expand N).tail).Perm (levels N t) := by
    rw [expand_eq, ← List.perm_cons, ← expand_eq_cons]
    exact expand_perm N t
  have hlen : (levels N t).length + 1 = N := by
    rw [← hperm.length_eq, ← List.length_cons, expand_eq, ← expand_eq_cons, length_expand,
      ← count_eq, hcount]
  rw [shrinks_eq_take (Nat.le_refl N), List.take_of_length_le (by omega)]
  exact hperm.symm

/-- A breadth-first listing ends at every limit, even where a tree does not. It is
the first values of the levels below the root, put one after the other, as many
as the limit says or all there are; so a higher limit only adds to the list. Of a
finite tree with `N` nodes, `N` values are listed that way which a depth-first walk
also meets below the root. -/
theorem shrinks_by_level (t : Tree α) :
    (∀ limit result, BreadthFirst limit t.children [] result ↔ result = t.shrinks limit) ∧
    (∀ limit depth, limit ≤ depth → t.shrinks limit = (levels depth t).take limit) ∧
    (∀ n m, n ≤ m → t.shrinks n <+: t.shrinks m) ∧
    ∀ N : Nat, t.paths.encard = N → (t.shrinks N).Perm (t.expand N).tail := by
  refine ⟨fun limit result => ?_, fun limit depth h => shrinks_eq_take h t,
    fun n m h => shrinks_isPrefix h t, fun N h => shrinks_perm h⟩
  rw [breadthFirst_iff, shrinks_eq, shrinks_eq_listing]
  rfl

/-- The listing of a tree that goes on for ever, and the two walks over one with
four nodes. -/
theorem shrinks_by_level_binary :
    let t : Tree Nat := unfold (fun n => .ofList [2 * n, 2 * n + 1]) 1
    let u : Tree Nat := node 10 [node 5 [leaf 2], leaf 0]
    (BreadthFirst 5 t.children [] (t.shrinks 5) ∧ t.shrinks 5 = (levels 5 t).take 5 ∧
      t.shrinks 3 <+: t.shrinks 5 ∧ t.shrinks 3 = [2, 3, 4]) ∧
    u.paths.encard = (4 : Nat) ∧ (u.shrinks 4).Perm (u.expand 4).tail ∧
      u.shrinks 4 = [5, 0, 2] ∧ (u.expand 4).tail = [5, 2, 0] := by
  intro t u
  obtain ⟨hends, htake, hprefix, -⟩ := shrinks_by_level t
  obtain ⟨-, htake', -, hperm⟩ := shrinks_by_level u
  have hshort : ∀ path ∈ u.paths, path.length ≤ 2 := by
    intro path hpath
    match path with
    | [] | [_] | [_, _] => simp
    | i :: j :: k :: path =>
      obtain ⟨c, hc, hpath⟩ := cons_mem_paths.1 hpath
      obtain ⟨d, hd, hpath⟩ := cons_mem_paths.1 hpath
      obtain ⟨e, he, -⟩ := cons_mem_paths.1 hpath
      obtain rfl | rfl : c = node 5 [leaf 2] ∨ c = leaf 0 := by
        simpa [u] using List.mem_of_getElem? hc
      · obtain rfl : d = leaf 2 := by simpa using List.mem_of_getElem? hd
        simp at he
      · simp at hd
  have hcard : u.paths.encard = (4 : Nat) := by
    rw [encard_paths hshort]
    simp [u]
  refine ⟨⟨(hends 5 _).2 rfl, htake 5 5 (by decide), hprefix 3 5 (by decide), ?_⟩, hcard,
    hperm 4 hcard, ?_, ?_⟩
  · rw [htake 3 3 (by decide)]
    simp [levels, level, List.range_succ, Branching.value, t]
  · rw [htake' 4 4 (by decide)]
    simp [levels, level, List.range_succ, Branching.value, u]
  · simp [u]

end Tree

end PropertyTesting
