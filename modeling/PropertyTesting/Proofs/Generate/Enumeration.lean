import PropertyTesting.Proofs.Generate.Stream

/-!
The stream of an enumeration. The cursor goes round and round; `nth_cycle` says
where it stands after any number of draws, and `nth_enumeration` what that makes
of an enumeration to which functions were applied, before or after it became a
generator.
-/

namespace PropertyTesting

/-- Functions to be applied one after the other. -/
inductive Maps : Type → Type → Type 1 where
  | done {α : Type} : Maps α α
  | next {α β γ : Type} (f : α → β) (rest : Maps β γ) : Maps α γ

namespace Maps

/-- All of the functions as one. -/
def image : {α β : Type} → Maps α β → α → β
  | _, _, done, v => v
  | _, _, next f rest, v => rest.image (f v)

/-- Apply the functions to an enumeration. -/
def enumeration : {α β : Type} → Maps α β → Enumeration α → Enumeration β
  | _, _, done, x => x
  | _, _, next f rest, x => rest.enumeration (x.map f)

/-- Apply the functions to a generator. -/
def generator : {α β : Type} → Maps α β → Generator α → Generator β
  | _, _, done, g => g
  | _, _, next f rest, g => rest.generator (g.map f)

end Maps

variable {α β γ : Type}

namespace Enumeration

@[ext] theorem ext {x y : Enumeration α} (h : x.values = y.values) : x = y := by
  cases x
  cases y
  congr

theorem map_id_fun (x : Enumeration α) : (x.map fun v => v) = x :=
  ext (Array.map_id' x.values)

theorem map_map (g : β → γ) (f : α → β) (x : Enumeration α) : (x.map f).map g = x.map (g ∘ f) :=
  ext Array.map_map

/-- From a list of at least one value there is an enumeration of its values. -/
theorem exists_ofList {values : List α} (h : values ≠ []) :
    ∃ x, ofList values = .ok x ∧ x.values = values.toArray :=
  ⟨_, dif_pos (List.length_pos_iff.2 h), rfl⟩

end Enumeration

namespace Maps

theorem enumeration_eq {α β : Type} (m : Maps α β) (x : Enumeration α) :
    m.enumeration x = x.map m.image := by
  induction m with
  | done => exact x.map_id_fun.symm
  | next f rest ih => exact (ih (x.map f)).trans (x.map_map rest.image f)

/-- A generator that goes through an enumeration still does when functions are
applied to it. -/
theorem generator_exhaustive {α β : Type} (m : Maps α β) (x : Enumeration α) :
    m.generator (.exhaustive x) = .exhaustive (m.enumeration x) := by
  induction m with
  | done => rfl
  | next f rest ih => exact ih (x.map f)

/-- It takes as many samples to see every value as there are values. -/
theorem minIterations_generator {values : List α} {x : Enumeration α}
    (hx : x.values = values.toArray) (direct : Maps α β) (later : Maps β γ) :
    (later.generator (.exhaustive (direct.enumeration x))).minIterations = values.length := by
  rw [generator_exhaustive, enumeration_eq, enumeration_eq]
  simp [Generator.minIterations, Enumeration.size, Enumeration.map, hx]

end Maps

namespace Samples

/-- Where the cursor stands after some draws. -/
theorem nth_cycle (x : Enumeration α) (place : Fin x.size) (i : Nat) :
    (cycle x place).nth i =
      .ok (.plain (x.get ⟨(place + i) % x.size, Nat.mod_lt _ x.nonempty⟩)) := by
  induction i generalizing place with
  | zero =>
    have hplace : (place + 0) % x.size = place := Nat.mod_eq_of_lt place.isLt
    simp only [nth, next_cycle, hplace]
  | succ i ih =>
    have hplace : (x.after place + i) % x.size = (place + (i + 1)) % x.size := by
      rw [Enumeration.after, Nat.mod_add_mod, Nat.add_assoc, Nat.add_comm 1]
    rw [nth, next_cycle, ih]
    simp only [hplace]

/-- The stream of an enumeration of a list to which functions were applied goes
round and round through the images of the list, and nothing in it shrinks. -/
theorem nth_enumeration {values : List α} {x : Enumeration α} (hx : x.values = values.toArray)
    (direct : Maps α β) (later : Maps β γ) (source : RandomSource) (edge : EdgeChance) (i : Nat) :
    ∃ v, values[i % values.length]? = some v ∧
      ((later.generator (.exhaustive (direct.enumeration x))).generate source edge).nth i =
        .ok (.plain (later.image (direct.image v))) := by
  obtain ⟨array, nonempty⟩ := x
  obtain rfl : array = values.toArray := hx
  have hlt : i % values.length < values.length := Nat.mod_lt _ nonempty
  refine ⟨values[i % values.length], List.getElem?_eq_getElem hlt, ?_⟩
  rw [Maps.generator_exhaustive, Maps.enumeration_eq, Maps.enumeration_eq, Enumeration.map_map]
  refine (nth_cycle _ _ i).trans ?_
  simp [Enumeration.get, Enumeration.first, Enumeration.map, Enumeration.size]

end Samples

end PropertyTesting
