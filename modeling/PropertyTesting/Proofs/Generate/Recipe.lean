import Mathlib.Data.List.FinRange
import PropertyTesting.Proofs.Generate.Within

/-!
Recipes: expressions that arbitraries are built from, and the set of values that
each may give. No arbitrary that a recipe describes leaves its set, neither with
a sample, nor with anything that a sample shrinks to at any depth, nor with an
edge case.
-/

namespace PropertyTesting

mutual

/-- How an arbitrary is built. -/
inductive Recipe : Type → Type 1 where
  | longRange (lo hi : Int64) : Recipe Int64
  | intRange (lo hi : Int32) : Recipe Int32
  | bool : Recipe Bool
  | char : Recipe Char
  | stringOf (min max : Nat) : Recipe String
  | constant {α : Type} (value : α) : Recipe α
  | ofValues {α : Type} (first : α) (rest : List α) : Recipe α
  | enumeration {α : Type} (values : Enumeration α) : Recipe α
  | oneOf {α : Type} {n : Nat} (first : Recipe α) (rest : Fin n → Recipe α) : Recipe α
  | list {α : Type} (element : Recipe α) (min max : Nat) : Recipe (List α)
  | option {α : Type} (inner : Recipe α) : Recipe (Option α)
  | zip {types : List Type} (inputs : Recipes types) : Recipe (Tuple types)
  | bind {types : List Type} {β : Type} (inputs : Recipes types) (f : Tuple types → β) : Recipe β
  | sequence {α : Type} {n : Nat} (inputs : Fin n → Recipe α) : Recipe (List α)
  | bindAll {α β : Type} {n : Nat} (inputs : Fin n → Recipe α) (f : List α → β) : Recipe β
  | withEdges {α : Type} (a : Recipe α) (edges : List α) : Recipe α
  | map {α β : Type} (a : Recipe α) (f : α → β) : Recipe β
  | filter {α : Type} (a : Recipe α) (p : α → Bool) (limit : Nat) : Recipe α
  | flatMap {α β : Type} (a : Recipe α) (f : α → Recipe β) : Recipe β

/-- How a row of arbitraries is built. -/
inductive Recipes : List Type → Type 1 where
  | nil : Recipes []
  | cons {α : Type} {types : List Type} (first : Recipe α) (rest : Recipes types) :
      Recipes (α :: types)

end

mutual

/-- The arbitrary that is built. -/
def Recipe.arbitrary : {α : Type} → Recipe α → Arbitrary α
  | _, .longRange lo hi => .longRange lo hi
  | _, .intRange lo hi => .intRange lo hi
  | _, .bool => .bool
  | _, .char => .char
  | _, .stringOf min max => .stringOf min max
  | _, .constant value => .constant value
  | _, .ofValues first rest => .ofArray (first :: rest).toArray (by simp)
  | _, .enumeration values => values.toArbitrary
  | _, .oneOf first rest => .oneOf first.arbitrary (List.ofFn fun i => (rest i).arbitrary)
  | _, .list element min max => .list element.arbitrary min max
  | _, .option inner => .option inner.arbitrary
  | _, .zip inputs => .zip inputs.inputs
  | _, .bind inputs f => .bind inputs.inputs f
  | _, .sequence inputs => .sequence (List.ofFn fun i => (inputs i).arbitrary)
  | _, .bindAll inputs f => .bindAll (List.ofFn fun i => (inputs i).arbitrary) f
  | _, .withEdges a edges => .withEdges a.arbitrary edges
  | _, .map a f => .map f a.arbitrary
  | _, .filter a p limit => .filter a.arbitrary p limit
  | _, .flatMap a f => .flatMap a.arbitrary fun v => (f v).arbitrary

/-- The row of arbitraries that is built. -/
def Recipes.inputs : {types : List Type} → Recipes types → Inputs types
  | _, .nil => ()
  | _, .cons first rest => (first.arbitrary, rest.inputs)

end

mutual

/-- The values that may be generated. -/
def Recipe.support : {α : Type} → Recipe α → Set α
  | _, .longRange lo hi => {n | lo ≤ n ∧ n ≤ hi}
  | _, .intRange lo hi => {n | lo ≤ n ∧ n ≤ hi}
  | _, .bool => Set.univ
  | _, .char => Draw.printableChars
  | _, .stringOf min max => {s | s.toList ∈ listsOf Draw.printableChars min max}
  | _, .constant value => {value}
  | _, .ofValues first rest => {v | v ∈ first :: rest}
  | _, .enumeration values => {v | v ∈ values.values}
  | _, .oneOf first rest => {v | v ∈ first.support ∨ ∃ i, v ∈ (rest i).support}
  | _, .list element min max => listsOf element.support min max
  | _, .option inner => {o | ∀ v ∈ o, v ∈ inner.support}
  | _, .zip inputs => inputs.support
  | _, .bind inputs f => f '' inputs.support
  | _, .sequence inputs => product (List.ofFn fun i => (inputs i).support)
  | _, .bindAll inputs f => f '' product (List.ofFn fun i => (inputs i).support)
  | _, .withEdges a edges => a.support ∪ {v | v ∈ edges}
  | _, .map a f => f '' a.support
  | _, .filter a p _ => {v | v ∈ a.support ∧ p v}
  | _, .flatMap a f => {w | ∃ v ∈ a.support, w ∈ (f v).support}

/-- The rows of values that may be generated. -/
def Recipes.support : {types : List Type} → Recipes types → Set (Tuple types)
  | _, .nil => Set.univ
  | _, .cons first rest => {v | v.1 ∈ first.support ∧ v.2 ∈ rest.support}

end

namespace Recipe

variable {α : Type}

theorem ofValues_eq (first : α) (rest : List α) :
    Arbitrary.ofValues (first :: rest) = .ok (Recipe.ofValues first rest).arbitrary := by
  simp [Arbitrary.ofValues, arbitrary]

theorem choice_eq {n : Nat} (first : Recipe α) (rest : Fin n → Recipe α) :
    Arbitrary.choice (first.arbitrary :: List.ofFn fun i => (rest i).arbitrary) =
      .ok (Recipe.oneOf first rest).arbitrary :=
  rfl

end Recipe

theorem Arbitrary.allWithin_ofFn {α : Type} {n : Nat} {as : Fin n → Arbitrary α}
    {Ss : Fin n → Set α} (h : ∀ i, (as i).Within (Ss i)) :
    AllWithin (List.ofFn as) (List.ofFn Ss) := by
  rw [List.ofFn_eq_map, List.ofFn_eq_map, AllWithin, List.forall₂_map_left_iff,
    List.forall₂_map_right_iff]
  exact List.forall₂_same.2 fun i _ => h i

mutual

theorem Recipe.within : {α : Type} → (r : Recipe α) → r.arbitrary.Within r.support
  | _, .longRange lo hi => Arbitrary.within_longRange lo hi
  | _, .intRange lo hi => Arbitrary.within_intRange lo hi
  | _, .bool => Arbitrary.within_bool
  | _, .char => Arbitrary.within_char
  | _, .stringOf min max => Arbitrary.within_stringOf min max
  | _, .constant value => Arbitrary.within_constant value
  | _, .ofValues first rest =>
    (Arbitrary.within_ofArray _ _).mono fun _ hv => List.mem_toArray.1 hv
  | _, .enumeration values => Arbitrary.within_ofArray values.values values.nonempty
  | _, .oneOf first rest => by
    refine Arbitrary.within_oneOf (List.forall_mem_cons.2 ⟨?_, fun a ha => ?_⟩)
    · exact first.within.mono fun _ => .inl
    · obtain ⟨i, rfl⟩ := List.mem_ofFn.1 ha
      exact (rest i).within.mono fun _ hv => .inr ⟨i, hv⟩
  | _, .list element min max => element.within.list min max
  | _, .option inner => inner.within.option
  | _, .zip inputs => Arbitrary.within_zip inputs.within
  | _, .bind inputs f => (Arbitrary.within_zip inputs.within).map f
  | _, .sequence inputs =>
    Arbitrary.within_sequence (Arbitrary.allWithin_ofFn fun i => (inputs i).within)
  | _, .bindAll inputs f =>
    (Arbitrary.within_sequence (Arbitrary.allWithin_ofFn fun i => (inputs i).within)).map f
  | _, .withEdges a edges => a.within.withEdges edges
  | _, .map a f => a.within.map f
  | _, .filter a p limit => a.within.filter p limit
  | _, .flatMap a f => a.within.flatMap fun v => (f v).within

theorem Recipes.within : {types : List Type} → (rs : Recipes types) → rs.inputs.Within rs.support
  | _, .nil => Inputs.within_nil
  | _, .cons first rest => Inputs.Within.cons first.within rest.within

end

/-- No arbitrary leaves the support of its recipe: not with the value of a sample,
which is the root of its shrink tree, not with any node of that tree, and not
with an edge case. -/
theorem Recipe.mem_support {α : Type} (r : Recipe α) (rs : RandomSource) :
    (∀ s, (r.arbitrary.sample rs).1 = .ok s →
      s.value ∈ r.support ∧ s.shrinks.value = s.value ∧
        ∀ u, Branching.Reaches s.shrinks u → u.value ∈ r.support) ∧
      ∀ v, (r.arbitrary.edge rs).1 = some v → v ∈ r.support := by
  constructor
  · intro s hs
    have hall : s.shrinks.All r.support := r.within.sample rs s hs
    exact ⟨s.root ▸ hall.root, s.root, hall⟩
  · intro v hv
    exact r.within.edge rs v hv

/-- The sum of two dice, doubled. -/
theorem Recipe.mem_support_dice :
    let die := Recipe.longRange 1 6
    let dice := Recipe.map (.bind (.cons die (.cons die .nil)) fun v => v.1 + v.2.1) (2 * ·)
    (∃ s, (dice.arbitrary.sample (.seeded 42)).1 = .ok s ∧ s.value ∈ dice.support ∧
      s.shrinks.value = s.value ∧ ∀ u, Branching.Reaches s.shrinks u → u.value ∈ dice.support) ∧
      ∃ v, (dice.arbitrary.edge (.seeded 42)).1 = some v ∧ v ∈ dice.support :=
  have h := Recipe.mem_support (.map (.bind (.cons (.longRange 1 6) (.cons (.longRange 1 6) .nil))
    fun v => v.1 + v.2.1) (2 * ·)) (.seeded 42)
  ⟨⟨_, rfl, h.1 _ rfl⟩, _, rfl, h.2 _ rfl⟩

end PropertyTesting
