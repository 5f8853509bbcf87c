import PropertyTesting.Proofs.Generate.Fork
import PropertyTesting.Proofs.Random.Yields

/-!
Broken arbitraries: those of which every sample is a fault, and which have no edge
case to hide it. What is built on a broken arbitrary is broken as well, since a
combinator that must draw from it has no way around the fault. In particular the
edge case of a product, which takes a fresh sample where an input has no edge case,
is given up when that sample fails.
-/

namespace PropertyTesting

variable {α β : Type} {types : List Type}

/-- Nothing that is drawn first can keep a later attempt from failing. -/
theorem Attempt.Fails.lift_bind {x : Draw α} {f : α → Attempt β} {S : Set α} (hx : x.Yields S)
    (hf : ∀ a ∈ S, (f a).Fails) : Attempt.Fails ((liftM x : Attempt α) >>= f) := by
  intro rs
  rw [lift_bind_apply]
  exact hf _ (hx rs) _

namespace Arbitrary

/-- Every sample is a fault, and there is no edge case. -/
structure Broken (a : Arbitrary α) : Prop where
  sample : a.sample.Fails
  edge : a.edge.Yields {none}

variable {a : Arbitrary α}

theorem broken_broken (reason : GeneratorFault) : (broken reason : Arbitrary α).Broken where
  sample := Attempt.fails_throw _
  edge := Draw.yields_pure rfl

theorem Broken.map (h : a.Broken) (f : α → β) : (a.map f).Broken where
  sample := h.sample.bind
  edge := h.edge.bind_of_single (Draw.yields_pure rfl)

theorem Broken.filter (h : a.Broken) (p : α → Bool) (limit : Nat) : (a.filter p limit).Broken where
  sample := by
    show (a.sampleAccepted p limit limit).Fails
    cases limit with
    | zero => exact Attempt.fails_throw _
    | succ limit => exact h.sample.bind
  edge := h.edge.bind_of_single (Draw.yields_pure rfl)

theorem Broken.flatMap (h : a.Broken) (f : α → Arbitrary β) : (a.flatMap f).Broken where
  sample := h.sample.forked.bind
  edge := h.edge.forked.bind_of_single (Draw.yields_pure rfl)

section Empty

theorem broken_longRange {lo hi : Int64} (h : hi < lo) : (longRange lo hi).Broken := by
  unfold longRange
  rw [dif_neg (Int.not_le.2 (Int64.lt_iff_toInt_lt.1 h))]
  exact broken_broken _

theorem broken_intRange {lo hi : Int32} (h : hi < lo) : (intRange lo hi).Broken := by
  refine (broken_longRange ?_).map _
  rwa [Int64.lt_iff_toInt_lt, Int32.toInt_toInt64, Int32.toInt_toInt64, ← Int32.lt_iff_toInt_lt]

theorem broken_stringOf {min max : Nat} (h : max < min) : (stringOf min max).Broken := by
  rw [stringOf, if_pos h]
  exact broken_broken _

theorem broken_list (a : Arbitrary α) {min max : Nat} (h : max < min) :
    (a.list min max).Broken := by
  rw [list_of_lt a h]
  exact broken_broken _

end Empty

theorem Broken.singles (h : a.Broken) (min max : Nat) : (a.singles min max).Yields {[]} := by
  unfold Arbitrary.singles
  split
  · exact h.edge.map_of_single _
  · exact Draw.yields_pure rfl

/-- A list that cannot be empty must draw an element. -/
theorem Broken.list (h : a.Broken) {min max : Nat} (hmin : 1 ≤ min) (hlen : min ≤ max) :
    (a.list min max).Broken where
  sample := by
    rw [sample_list a hlen]
    refine Attempt.Fails.lift_bind (Draw.between_yields hlen) fun n hn => ?_
    exact ((h.sample.forked.map _).times (Nat.lt_of_lt_of_le hmin hn.1)).map _
  edge := by
    rw [edge_list a hlen, if_neg (by omega)]
    exact (h.singles min max).bind_of_single (Draw.yields_pure rfl)

/-- Neither an edge case nor a fresh sample can be had from a broken input. -/
theorem Broken.edgeOrSample (h : a.Broken) : a.edgeOrSample.Yields {none} := by
  refine h.edge.bind_of_single ?_
  have hsample : Draw.Yields a.sample.run {r | ∃ e, r = Except.error e} := h.sample
  refine hsample.bind fun r hr => ?_
  obtain ⟨e, rfl⟩ := hr
  exact Draw.yields_pure rfl

section Sequence

variable {as : List (Arbitrary α)}

theorem Broken.trees (h : a.Broken) (ha : a ∈ as) : (trees as).Fails := by
  induction as with
  | nil => exact absurd ha List.not_mem_nil
  | cons b as ih =>
    rcases List.mem_cons.1 ha with rfl | ha
    · exact h.sample.forked.bind
    · exact Attempt.fails_bind fun s => (ih ha).bind

/-- Whatever edge cases the other inputs have, they are given up. -/
theorem Broken.edges (h : a.Broken) (ha : a ∈ as) : (edges as).Yields {none} := by
  induction as with
  | nil => exact absurd ha List.not_mem_nil
  | cons b as ih =>
    rcases List.mem_cons.1 ha with rfl | ha
    · exact h.edgeOrSample.bind_of_single (Draw.yields_pure rfl)
    · refine (Draw.yields_univ b.edgeOrSample).bind fun o _ => ?_
      rcases o with _ | ⟨hit, v⟩
      · exact Draw.yields_pure rfl
      · exact (ih ha).bind_of_single (Draw.yields_pure rfl)

theorem Broken.sequence (h : a.Broken) (ha : a ∈ as) : (sequence as).Broken where
  sample := by
    rw [sample_sequence]
    exact (h.trees ha).map _
  edge := by
    rw [edge_sequence]
    exact (h.edges ha).map_of_single marked

end Sequence

end Arbitrary

namespace Inputs

/-- At least one input of a row is broken. -/
inductive AnyBroken : {types : List Type} → Inputs types → Prop
  | head {α : Type} {types : List Type} {a : Arbitrary α} (h : a.Broken) (as : Inputs types) :
      AnyBroken (.cons a as)
  | tail {α : Type} {types : List Type} (a : Arbitrary α) {as : Inputs types} :
      AnyBroken as → AnyBroken (.cons a as)

variable {as : Inputs types}

theorem AnyBroken.trees (h : as.AnyBroken) : as.trees.Fails := by
  induction h with
  | head h as => exact h.sample.forked.bind
  | tail a _ ih => exact Attempt.fails_bind fun s => ih.bind

/-- Whatever edge cases the other inputs have, they are given up. -/
theorem AnyBroken.edges (h : as.AnyBroken) : as.edges.Yields {none} := by
  induction h with
  | head h as => exact h.edgeOrSample.bind_of_single (Draw.yields_pure rfl)
  | tail a _ ih =>
    refine (Draw.yields_univ a.edgeOrSample).bind fun o _ => ?_
    rcases o with _ | ⟨hit, v⟩
    · exact Draw.yields_pure rfl
    · exact ih.bind_of_single (Draw.yields_pure rfl)

theorem AnyBroken.zip (h : as.AnyBroken) : (Arbitrary.zip as).Broken where
  sample := by
    rw [Arbitrary.sample_zip]
    exact h.trees.map _
  edge := by
    rw [Arbitrary.edge_zip]
    exact h.edges.map_of_single Arbitrary.marked

end Inputs

end PropertyTesting
