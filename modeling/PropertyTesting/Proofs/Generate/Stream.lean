import PropertyTesting.Generate.Generator
import PropertyTesting.Proofs.Generate.Attempt
import PropertyTesting.Proofs.Tree.Map

/-!
Streams of samples, position by position. To apply a function to a generator is
to apply it to every element of its stream: `Samples.next_map` says that one
draw from the one stream is the image of one draw from the other, and leaves
streams behind of which the same can be said. So the two go on in step for
ever, through edge cases, missing edge cases and faults alike.
-/

namespace PropertyTesting

variable {α β γ : Type}

namespace Sample

@[simp] theorem shrinks_map (f : α → β) (s : Sample α) : (s.map f).shrinks = s.shrinks.map f := rfl

@[simp] theorem value_map (f : α → β) (s : Sample α) : (s.map f).value = f s.value :=
  congrArg f s.root

@[simp] theorem map_plain (f : α → β) (v : α) : (plain v).map f = plain (f v) :=
  ext (Tree.map_leaf f v)

@[simp] theorem map_id_fun (s : Sample α) : (s.map fun v => v) = s :=
  ext (Tree.map_id_fun s.shrinks)

theorem map_map (g : β → γ) (f : α → β) (s : Sample α) : (s.map f).map g = s.map (g ∘ f) :=
  ext (Tree.map_map g f s.shrinks)

/-- A sample is the image of another: so is its value, and so is the value of
every node of its tree, with the same paths leading to nodes. -/
structure IsImage (f : α → β) (s : Sample α) (t : Sample β) : Prop where
  value : t.value = f s.value
  nodes : ∀ path,
    (t.shrinks.descend path).map Tree.value = (s.shrinks.descend path).map (f ·.value)

theorem isImage_map (f : α → β) (s : Sample α) : IsImage f s (s.map f) where
  value := value_map f s
  nodes path := by
    rw [shrinks_map, Tree.descend_map]
    cases s.shrinks.descend path with
    | error place => rfl
    | ok u => rfl

/-- An element of a stream is the image of another: they are the same fault, or
samples of which the one is the image of the other. -/
inductive ElementImage (f : α → β) :
    Except Fault (Sample α) → Except Fault (Sample β) → Prop where
  | fault (e : Fault) : ElementImage f (.error e) (.error e)
  | sample {s : Sample α} {t : Sample β} : IsImage f s t → ElementImage f (.ok s) (.ok t)

theorem elementImage_map (f : α → β) (e : Except Fault (Sample α)) :
    ElementImage f e (e.map (map f)) := by
  cases e with
  | error e => exact .fault e
  | ok s => exact .sample (isImage_map f s)

end Sample

namespace Arbitrary

theorem sample_map (f : α → β) (a : Arbitrary α) : (a.map f).sample = Sample.map f <$> a.sample :=
  bind_pure_comp (Sample.map f) a.sample

theorem edge_map (f : α → β) (a : Arbitrary α) : (a.map f).edge = Option.map f <$> a.edge :=
  rfl

end Arbitrary

namespace Enumeration

theorem size_map (f : α → β) (x : Enumeration α) : (x.map f).size = x.size :=
  Array.size_map

theorem get_map (f : α → β) (x : Enumeration α) (place : Fin x.size) :
    (x.map f).get (place.cast (size_map f x).symm) = f (x.get place) :=
  Array.getElem_map ..

theorem after_map (f : α → β) (x : Enumeration α) (place : Fin x.size) :
    (x.map f).after (place.cast (size_map f x).symm) =
      (x.after place).cast (size_map f x).symm :=
  Fin.ext (congrArg ((place + 1 : Nat) % ·) (size_map f x))

end Enumeration

namespace Samples

/-- The element of a stream at a position, counted from zero. -/
def nth : Samples α → Nat → Except Fault (Sample α)
  | s, 0 => s.next.1
  | s, i + 1 => nth s.next.2 i

theorem take_succ (n : Nat) (s : Samples α) : s.take (n + 1) = s.next.1 :: s.next.2.take n :=
  rfl

theorem take_eq_map_nth (n : Nat) (s : Samples α) : s.take n = (List.range n).map s.nth := by
  induction n generalizing s with
  | zero => rfl
  | succ n ih =>
    rw [List.range_succ_eq_map, List.map_cons, List.map_map, take_succ, ih]
    rfl

/-- A function applied to all that a stream is drawn from. -/
def map (f : α → β) : Samples α → Samples β
  | random a edge source => random (a.map f) edge source
  | cycle values place => cycle (values.map f) (place.cast (values.size_map f).symm)

/-- The roll for an edge case, the edge case that may be missing and the sample
in its place are drawn as before. -/
theorem draw_map (f : α → β) (a : Arbitrary α) (edge : EdgeChance) :
    draw (a.map f) edge = Sample.map f <$> draw a edge := by
  unfold draw
  rw [map_bind]
  refine bind_congr fun roll => ?_
  cases roll with
  | false => exact a.sample_map f
  | true =>
    simp only [if_true, map_bind, Arbitrary.edge_map, liftM_map, bind_map_left]
    refine bind_congr fun e => ?_
    cases e with
    | none => exact a.sample_map f
    | some v => simp

theorem next_random (a : Arbitrary α) (edge : EdgeChance) (source : RandomSource) :
    (random a edge source).next =
      ((draw a edge source).1, random a edge (draw a edge source).2) := by
  rw [next]

theorem next_cycle (values : Enumeration α) (place : Fin values.size) :
    (cycle values place).next =
      (.ok (.plain (values.get place)), cycle values (values.after place)) :=
  rfl

theorem next_of_draw {a : Arbitrary α} {edge : EdgeChance} {rs rs' : RandomSource}
    {result : Except Fault (Sample α)} (h : draw a edge rs = (result, rs')) :
    (random a edge rs).next = (result, random a edge rs') := by
  rw [next_random, h]

/-- One draw from the image of a stream. -/
theorem next_map (f : α → β) (s : Samples α) :
    (s.map f).next = (s.next.1.map (Sample.map f), s.next.2.map f) := by
  cases s with
  | random a edge source =>
    rw [map, next_random, next_random, draw_map, Attempt.map_apply]
    rcases draw a edge source with ⟨result, source'⟩
    rfl
  | cycle values place =>
    rw [map, next_cycle, next_cycle, map, Enumeration.get_map, Enumeration.after_map, Except.map,
      Sample.map_plain]

/-- The elements of the image of a stream, however far out. -/
theorem nth_map (f : α → β) (s : Samples α) (i : Nat) :
    (s.map f).nth i = (s.nth i).map (Sample.map f) := by
  induction i generalizing s with
  | zero => rw [nth, nth, next_map]
  | succ i ih => rw [nth, nth, next_map, ih]

/-- A stream without its first elements. -/
def drop : Nat → Samples α → Samples α
  | 0, s => s
  | i + 1, s => drop i s.next.2

theorem nth_eq_next_drop (i : Nat) (s : Samples α) : s.nth i = (s.drop i).next.1 := by
  induction i generalizing s with
  | zero => rfl
  | succ i ih => rw [nth, drop, ih]

section Draw

variable (a : Arbitrary α) (edge : EdgeChance)

theorem exists_drop_random (i : Nat) (rs : RandomSource) :
    ∃ rs', (random a edge rs).drop i = random a edge rs' := by
  induction i generalizing rs with
  | zero => exact ⟨rs, rfl⟩
  | succ i ih =>
    -- The result of the draw gets a name first, since the draw itself cannot be evaluated.
    rcases hdraw : draw a edge rs with ⟨result, rs'⟩
    rw [drop, next_of_draw hdraw]
    exact ih rs'

/-- Every element of a stream of random samples is one draw, made where the stream
stands. -/
theorem exists_nth_random (source : RandomSource) (i : Nat) :
    ∃ rs result rs', (random a edge source).drop i = random a edge rs ∧
      draw a edge rs = (result, rs') ∧ (random a edge source).nth i = result := by
  obtain ⟨rs, hrs⟩ := exists_drop_random a edge i source
  rcases hdraw : draw a edge rs with ⟨result, rs'⟩
  refine ⟨rs, result, rs', hrs, hdraw, ?_⟩
  rw [nth_eq_next_drop, hrs, next_of_draw hdraw]

variable {a edge} {rs rs₁ rs₂ : RandomSource}

theorem draw_of_edge {v : α} (hroll : edge.roll rs = (true, rs₁))
    (hedge : a.edge rs₁ = (some v, rs₂)) : draw a edge rs = (.ok (.plain v), rs₂) := by
  rw [draw, Attempt.lift_bind_apply, hroll]
  simp only [if_true]
  rw [Attempt.lift_bind_apply, hedge]
  rfl

/-- A draw is a fresh sample if it was to be an edge case and there is none. -/
theorem draw_of_no_edge (hroll : edge.roll rs = (true, rs₁))
    (hedge : a.edge rs₁ = (none, rs₂)) : draw a edge rs = a.sample rs₂ := by
  rw [draw, Attempt.lift_bind_apply, hroll]
  simp only [if_true]
  rw [Attempt.lift_bind_apply, hedge]

theorem draw_of_fresh (hroll : edge.roll rs = (false, rs₁)) :
    draw a edge rs = a.sample rs₁ := by
  rw [draw, Attempt.lift_bind_apply, hroll]
  rfl

end Draw

end Samples

namespace Generator

variable (g : Generator α) (source : RandomSource) (edge : EdgeChance)

theorem generate_map (f : α → β) :
    (g.map f).generate source edge = (g.generate source edge).map f := by
  cases g with
  | arbitrary a => rfl
  | exhaustive values => rfl

theorem nth_generate_map (f : α → β) (i : Nat) :
    ((g.map f).generate source edge).nth i =
      ((g.generate source edge).nth i).map (Sample.map f) := by
  rw [generate_map, Samples.nth_map]

/-- The stream of a generator to which a function was applied is the image of its
stream, position by position. One function after the other is the same as both at
once, and to apply the identity changes nothing. -/
theorem map_pointwise (f : α → β) :
    (∀ i, Sample.ElementImage f ((g.generate source edge).nth i)
      (((g.map f).generate source edge).nth i)) ∧
    (∀ {γ : Type} (h : β → γ) (i : Nat), (((g.map f).map h).generate source edge).nth i =
      ((g.map (h ∘ f)).generate source edge).nth i) ∧
    ∀ i, ((g.map id).generate source edge).nth i = (g.generate source edge).nth i := by
  refine ⟨fun i => ?_, fun h i => ?_, fun i => ?_⟩
  · rw [nth_generate_map]
    exact Sample.elementImage_map f _
  · rw [nth_generate_map, nth_generate_map, nth_generate_map]
    cases (g.generate source edge).nth i with
    | error e => rfl
    | ok s => exact congrArg Except.ok (s.map_map h f)
  · rw [nth_generate_map]
    cases (g.generate source edge).nth i with
    | error e => rfl
    | ok s => exact congrArg Except.ok s.map_id_fun

end Generator

end PropertyTesting
