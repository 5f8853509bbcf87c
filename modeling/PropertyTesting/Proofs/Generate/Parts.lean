import PropertyTesting.Generate.Collection
import PropertyTesting.Proofs.Generate.Stream
import PropertyTesting.Generate.Join

/-!
How the samples and the edge cases of an arbitrary come from those of its parts.
There is one equation for the samples of each combinator and one for its edge
cases.
-/

namespace PropertyTesting.Arbitrary

variable {α β : Type} {types : List Type}

theorem sample_sequence (as : List (Arbitrary α)) :
    (sequence as).sample = (fun ts => .ofTree (.sequence ts)) <$> trees as :=
  bind_pure_comp ..

theorem edge_sequence (as : List (Arbitrary α)) : (sequence as).edge = marked <$> edges as :=
  bind_pure_comp ..

theorem sample_zip (as : Inputs types) :
    (zip as).sample = (fun ts => .ofTree ts.product) <$> as.trees :=
  bind_pure_comp ..

theorem edge_zip (as : Inputs types) : (zip as).edge = marked <$> as.edges :=
  bind_pure_comp ..

theorem edge_filter (a : Arbitrary α) (p : α → Bool) (limit : Nat) :
    (a.filter p limit).edge = Option.filter p <$> a.edge :=
  bind_pure_comp ..

section OneOf

variable (first : Arbitrary α) (rest : List (Arbitrary α))

theorem sample_oneOf :
    (oneOf first rest).sample = (do
      let i ← Draw.below .wide (show 0 < (first :: rest).length from Nat.succ_pos _)
      ((first :: rest).get i).sample) :=
  rfl

theorem edge_oneOf :
    (oneOf first rest).edge = (do
      let order ← Draw.shuffle (first :: rest).toArray
      firstEdge order.toList) :=
  rfl

end OneOf

section List

variable (a : Arbitrary α) {min max : Nat}

theorem list_of_lt (h : max < min) : a.list min max = broken (.emptyLengthRange min max) :=
  if_pos h

/-- The shrink tree of a sample of an element. -/
def element : Attempt (Tree α) :=
  Sample.shrinks <$> Attempt.forked a.sample

theorem sample_list (h : min ≤ max) :
    (a.list min max).sample = (do
      let n ← Draw.between min max
      (fun ts => .ofTree (.list ts min)) <$> Attempt.times n a.element) := by
  rw [list, if_neg (Nat.not_lt.2 h)]
  simp only [element, bind_pure_comp]

/-- The lists of one element that are edge cases, if lists of that length are. -/
def singles (min max : Nat) : Draw (List (List α)) :=
  if min ≤ 1 ∧ 1 ≤ max then (fun e => e.toList.map ([·])) <$> a.edge else return []

theorem edge_list (h : min ≤ max) :
    (a.list min max).edge = (do
      let single ← a.singles min max
      Draw.choose ((if min = 0 then [[]] else []) ++ single)) := by
  rw [list, if_neg (Nat.not_lt.2 h), singles]
  by_cases hone : min ≤ 1 ∧ 1 ≤ max
  · simp only [if_pos hone, bind_map_left]
    rfl
  · simp only [if_neg hone, pure_bind]

end List

section Option

variable (a : Arbitrary α)

theorem sample_option :
    (option a).sample = (do
      if ← Draw.chance tenth then return .plain none
      else (fun s => .ofTree s.shrinks.optional) <$> a.sample) := by
  simp only [option, bind_pure_comp]

theorem edge_option :
    (option a).edge = (do
      let e ← a.edge
      Option.join <$> Draw.choose [some none, e.map some]) := by
  simp only [option, bind_pure_comp]

end Option

end PropertyTesting.Arbitrary
