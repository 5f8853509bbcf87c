import PropertyTesting.Proofs.Generate.Join
import PropertyTesting.Proofs.Generate.Parts

/-!
Functions and combinators in either order. To apply a function to what an
arbitrary gives and then build lists, options, sequences, choices, filtered or
dependent arbitraries of it comes to the same as to build these first and to
apply the function inside. The same arbitraries result, so nothing tells the two
apart: not a sample or its fault, not the shrink tree, not the edge case, and not
the number of draws that each of them took.
-/

namespace PropertyTesting

variable {α β γ : Type}

namespace Draw

/-- Numbers below equal bounds are the same draws. -/
theorem below_cast {n m : Nat} (s : Nat → Scale) (hnm : n = m) (hn : 0 < n) (hm : 0 < m) :
    Fin.cast hnm <$> below (s n) hn = below (s m) hm := by
  subst hnm
  exact id_map (below (s n) hn)

theorem choose_map (f : α → β) (xs : List α) : choose (xs.map f) = Option.map f <$> choose xs := by
  unfold choose
  split
  · rename_i h
    have hxs : 0 < xs.length := by simpa using h
    rw [dif_pos hxs, position, position, ← below_cast .positions (List.length_map f) h hxs]
    simp
  · rename_i h
    have hxs : ¬ 0 < xs.length := by simpa using h
    rw [dif_neg hxs]
    rfl

theorem map_swapIfInBounds (f : α → β) (xs : Array α) (i j : Nat) :
    (xs.swapIfInBounds i j).map f = (xs.map f).swapIfInBounds i j := by
  ext k hk hk'
  · simp
  · simp only [Array.getElem_map, Array.getElem_swapIfInBounds, Array.size_map]
    split
    · rfl
    · split
      · rfl
      · rfl

theorem shuffleFrom_map (f : α → β) (i : Nat) (xs : Array α) :
    shuffleFrom i (xs.map f) = Array.map f <$> shuffleFrom i xs := by
  induction i generalizing xs with
  | zero => rfl
  | succ i ih =>
    rw [shuffleFrom, shuffleFrom, map_bind]
    refine bind_congr fun j => ?_
    rw [← ih, map_swapIfInBounds]

theorem shuffle_map (f : α → β) (xs : Array α) :
    shuffle (xs.map f) = Array.map f <$> shuffle xs := by
  rw [shuffle, shuffle, Array.size_map, shuffleFrom_map]

end Draw

namespace Attempt

theorem forked_map (f : α → β) (x : Attempt α) : forked (f <$> x) = f <$> forked x := by
  funext rs
  show (((f <$> x) (Draw.fork rs).1).1, (Draw.fork rs).2) = (f <$> forked x) rs
  rw [map_apply, map_apply]
  rfl

theorem times_map (f : α → β) (x : Attempt α) (n : Nat) :
    times n (f <$> x) = List.map f <$> times n x := by
  induction n with
  | zero => rfl
  | succ n ih =>
    rw [times, times, ih, map_bind, bind_map_left]
    refine bind_congr fun a => ?_
    simp

end Attempt

namespace Arbitrary

variable (f : α → β)

theorem firstEdge_map (as : List (Arbitrary α)) :
    firstEdge (as.map (map f)) = Option.map f <$> firstEdge as := by
  induction as with
  | nil => rfl
  | cons a as ih =>
    rw [List.map_cons, firstEdge, firstEdge, edge_map, map_bind, bind_map_left]
    refine bind_congr fun e => ?_
    cases e with
    | none => exact ih
    | some v => rfl

theorem trees_map (as : List (Arbitrary α)) :
    trees (as.map (map f)) = List.map (Tree.map f) <$> trees as := by
  induction as with
  | nil => rfl
  | cons a as ih =>
    rw [List.map_cons, trees, trees, sample_map, Attempt.forked_map, map_bind, bind_map_left]
    refine bind_congr fun s => ?_
    simp [ih]

theorem edgeOrSample_map (a : Arbitrary α) :
    (a.map f).edgeOrSample = Option.map (Prod.map id f) <$> a.edgeOrSample := by
  rw [edgeOrSample, edgeOrSample, edge_map, map_bind, bind_map_left]
  refine bind_congr fun e => ?_
  cases e with
  | some v => rfl
  | none =>
    simp only [Option.map_none, sample_map, ExceptT.run_map, map_bind, bind_map_left]
    refine bind_congr fun r => ?_
    cases r with
    | ok s => simp [Except.map]
    | error e => rfl

theorem edges_map (as : List (Arbitrary α)) :
    edges (as.map (map f)) = Option.map (Prod.map id (List.map f)) <$> edges as := by
  induction as with
  | nil => rfl
  | cons a as ih =>
    rw [List.map_cons, edges, edges, edgeOrSample_map, map_bind, bind_map_left]
    refine bind_congr fun first => ?_
    rcases first with _ | ⟨hit, v⟩
    · rfl
    · simp only [Option.map_some, Prod.map, ih, map_bind, bind_map_left]
      refine bind_congr fun rest => ?_
      rcases rest with _ | ⟨hits, vs⟩
      · rfl
      · rfl

theorem sampleAccepted_map (a : Arbitrary α) (p : β → Bool) (limit attempts : Nat) :
    (a.map f).sampleAccepted p limit attempts =
      Sample.map f <$> a.sampleAccepted (p ∘ f) limit attempts := by
  induction attempts with
  | zero => rfl
  | succ attempts ih =>
    rw [sampleAccepted, sampleAccepted, sample_map, map_bind, bind_map_left]
    refine bind_congr fun s => ?_
    rw [Sample.shrinks_map, Tree.filter_map]
    cases s.shrinks.filter (p ∘ f) with
    | some t => rfl
    | none => exact ih

theorem sequence_map (as : List (Arbitrary α)) :
    sequence (as.map (map f)) = (sequence as).map (List.map f) := by
  ext1
  · simp only [sample_map, sample_sequence, trees_map, Functor.map_map, Tree.sequence_map]
    rfl
  · simp only [edge_map, edge_sequence, edges_map, Functor.map_map, marked_map]

theorem oneOf_map (first : Arbitrary α) (rest : List (Arbitrary α)) :
    oneOf (first.map f) (rest.map (map f)) = (oneOf first rest).map f := by
  have hlength : (first :: rest).length = ((first :: rest).map (map f)).length := by simp
  ext1
  · rw [sample_map, sample_oneOf, sample_oneOf, map_bind]
    rw [← Draw.below_cast (fun _ => .wide) hlength (Nat.succ_pos _), liftM_map, bind_map_left]
    refine bind_congr fun i => ?_
    show (((first :: rest).map (map f))[i.val]).sample = _
    rw [List.getElem_map, sample_map]
    rfl
  · rw [edge_map, edge_oneOf, edge_oneOf, ← List.map_cons, ← List.map_toArray, Draw.shuffle_map,
      bind_map_left, map_bind]
    refine bind_congr fun order => ?_
    rw [Array.toList_map, firstEdge_map]

theorem element_map (a : Arbitrary α) : (a.map f).element = Tree.map f <$> a.element := by
  simp only [element, sample_map, Attempt.forked_map, Functor.map_map, Sample.shrinks_map]

theorem singles_map (a : Arbitrary α) (min max : Nat) :
    (a.map f).singles min max = List.map (List.map f) <$> a.singles min max := by
  unfold singles
  split
  · simp only [edge_map, Functor.map_map]
    refine congrArg (· <$> a.edge) (funext fun e => ?_)
    cases e with
    | none => rfl
    | some v => rfl
  · rfl

theorem list_map (a : Arbitrary α) (min max : Nat) :
    list (a.map f) min max = (list a min max).map (List.map f) := by
  rcases Nat.lt_or_ge max min with h | h
  · rw [list_of_lt _ h, list_of_lt _ h]
    rfl
  · have hempty : (if min = 0 then [[]] else []) =
        (if min = 0 then [[]] else []).map (List.map f) := by
      split
      · rfl
      · rfl
    ext1
    · rw [sample_map, sample_list _ h, sample_list _ h, map_bind, element_map]
      refine bind_congr fun n => ?_
      simp only [Attempt.times_map, Functor.map_map, Tree.list_map]
      rfl
    · rw [edge_map, edge_list _ h, edge_list _ h, singles_map, bind_map_left, map_bind]
      refine bind_congr fun single => ?_
      rw [hempty, ← List.map_append, Draw.choose_map]

theorem option_map (a : Arbitrary α) : option (a.map f) = (option a).map (Option.map f) := by
  ext1
  · rw [sample_map, sample_option, sample_option, map_bind]
    refine bind_congr fun b => ?_
    cases b with
    | true => simp
    | false =>
      simp only [Bool.false_eq_true, if_false, sample_map, Functor.map_map, Sample.shrinks_map,
        Tree.optional_map]
      rfl
  · rw [edge_map, edge_option, edge_option, edge_map, bind_map_left, map_bind]
    refine bind_congr fun e => ?_
    have hplaces : [some none, (e.map f).map some] =
        [some none, e.map some].map (Option.map (Option.map f)) := by
      cases e with
      | none => rfl
      | some v => rfl
    rw [hplaces, Draw.choose_map, Functor.map_map, Functor.map_map]
    refine congrArg (· <$> _) (funext fun chosen => ?_)
    rcases chosen with _ | _ | _
    · rfl
    · rfl
    · rfl

theorem filter_map (a : Arbitrary α) (p : β → Bool) (limit : Nat) :
    (a.map f).filter p limit = (a.filter (p ∘ f) limit).map f := by
  ext1
  · rw [sample_map]
    exact a.sampleAccepted_map f p limit limit
  · simp only [edge_map, edge_filter, Functor.map_map, Option.filter_map]

theorem flatMap_map (a : Arbitrary γ) (g : γ → Arbitrary α) :
    a.flatMap (fun v => (g v).map f) = (a.flatMap g).map f := by
  ext1
  · simp only [flatMap, sample_map, Attempt.forked_map, map_bind]
  · simp only [flatMap, edge_map, map_bind]
    refine bind_congr fun e => ?_
    cases e with
    | none => rfl
    | some v => rfl

/-- Every combinator commutes with the application of a function. The two sides
are one arbitrary: from any source they give the same fault or the same sample
with the same shrink tree, the same edge case or none, and they leave the source
in the same state. -/
theorem combinators_commute_map :
    (∀ (a : Arbitrary α) (min max : Nat),
      list (a.map f) min max = (list a min max).map (List.map f)) ∧
    (∀ a : Arbitrary α, option (a.map f) = (option a).map (Option.map f)) ∧
    (∀ as : List (Arbitrary α), sequence (as.map (map f)) = (sequence as).map (List.map f)) ∧
    (∀ (first : Arbitrary α) (rest : List (Arbitrary α)),
      oneOf (first.map f) (rest.map (map f)) = (oneOf first rest).map f) ∧
    (∀ (a : Arbitrary α) (p : β → Bool) (limit : Nat),
      (a.map f).filter p limit = (a.filter (p ∘ f) limit).map f) ∧
    ∀ {γ : Type} (a : Arbitrary γ) (g : γ → Arbitrary α),
      a.flatMap (fun v => (g v).map f) = (a.flatMap g).map f :=
  ⟨list_map f, option_map f, sequence_map f, oneOf_map f, filter_map f, flatMap_map f⟩

end Arbitrary

end PropertyTesting
