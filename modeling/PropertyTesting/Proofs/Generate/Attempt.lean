import PropertyTesting.Generate.Arbitrary

/-!
Attempts, step by step and read backwards. If attempts that are made one after
the other end in a value or in a fault, then it is known how each of them ended.
A fork is worth one draw to the source that it is taken from, however much is
drawn from it.
-/

namespace PropertyTesting

variable {α β : Type}

namespace RandomSource

/-- A source after a number of draws. -/
def skip : RandomSource → Nat → RandomSource
  | rs, 0 => rs
  | rs, n + 1 => skip rs.next.2 n

/-- The source that a fork hands out: it is seeded by the next draw. -/
def child (rs : RandomSource) : RandomSource :=
  seeded rs.next.1

end RandomSource

namespace Draw

theorem bind_apply (x : Draw α) (f : α → Draw β) (rs : RandomSource) :
    (x >>= f) rs = f (x rs).1 (x rs).2 :=
  rfl

theorem map_apply (f : α → β) (x : Draw α) (rs : RandomSource) :
    (f <$> x) rs = (f (x rs).1, (x rs).2) :=
  rfl

end Draw

namespace Attempt

variable {x : Attempt α} {f : α → Attempt β} {a : α} {b : β} {e : Fault} {rs rs' : RandomSource}

theorem bind_apply (x : Attempt α) (f : α → Attempt β) (rs : RandomSource) :
    (x >>= f) rs =
      match x rs with
      | (.ok a, rs) => f a rs
      | (.error e, rs) => (.error e, rs) := by
  show (ExceptT.bindCont f (x rs).1) (x rs).2 = _
  rcases x rs with ⟨_ | a, rs'⟩
  · rfl
  · rfl

theorem bind_of_ok (h : (x rs).1 = .ok a) (f : α → Attempt β) :
    (x >>= f) rs = f a (x rs).2 := by
  rw [bind_apply, show x rs = (.ok a, (x rs).2) from Prod.ext h rfl]

theorem bind_of_error (h : (x rs).1 = .error e) (f : α → Attempt β) :
    (x >>= f) rs = (.error e, (x rs).2) := by
  rw [bind_apply, show x rs = (.error e, (x rs).2) from Prod.ext h rfl]

theorem bind_eq_ok : (x >>= f) rs = (.ok b, rs') ↔
    ∃ a rs₁, x rs = (.ok a, rs₁) ∧ f a rs₁ = (.ok b, rs') := by
  rw [bind_apply]
  constructor
  · intro h
    rcases hx : x rs with ⟨_ | a, rs₁⟩
    · simp only [hx] at h
      cases h
    · simp only [hx] at h
      exact ⟨a, rs₁, rfl, h⟩
  · rintro ⟨a, rs₁, hx, hf⟩
    simp only [hx, hf]

theorem bind_eq_error : (x >>= f) rs = (.error e, rs') ↔
    x rs = (.error e, rs') ∨ ∃ a rs₁, x rs = (.ok a, rs₁) ∧ f a rs₁ = (.error e, rs') := by
  rw [bind_apply]
  constructor
  · intro h
    rcases hx : x rs with ⟨_ | a, rs₁⟩
    · simp only [hx] at h
      cases h
      exact .inl rfl
    · simp only [hx] at h
      exact .inr ⟨a, rs₁, rfl, h⟩
  · rintro (hx | ⟨a, rs₁, hx, hf⟩)
    · simp only [hx]
    · simp only [hx, hf]

/-- To change what an attempt gives is to change its result. It fails where it
failed and leaves the same source behind. -/
theorem map_apply (f : α → β) (x : Attempt α) (rs : RandomSource) :
    (f <$> x) rs = ((x rs).1.map f, (x rs).2) := by
  show (ExceptT.map f x) rs = _
  simp only [ExceptT.map, ExceptT.mk, bind, StateT.bind]
  rcases x rs with ⟨_ | a, rs'⟩
  · rfl
  · rfl

theorem map_eq_ok {g : α → β} : (g <$> x) rs = (.ok b, rs') ↔
    ∃ a, x rs = (.ok a, rs') ∧ g a = b := by
  rw [← bind_pure_comp, bind_eq_ok]
  constructor
  · rintro ⟨a, rs₁, hx, hg⟩
    cases hg
    exact ⟨a, hx, rfl⟩
  · rintro ⟨a, hx, rfl⟩
    exact ⟨a, rs', hx, rfl⟩

theorem map_eq_error {g : α → β} : (g <$> x) rs = (.error e, rs') ↔ x rs = (.error e, rs') := by
  rw [← bind_pure_comp, bind_eq_error]
  constructor
  · rintro (hx | ⟨a, rs₁, -, hg⟩)
    · exact hx
    · cases hg
  · exact .inl

theorem lift_bind_apply (x : Draw α) (f : α → Attempt β) (rs : RandomSource) :
    ((liftM x : Attempt α) >>= f) rs = f (x rs).1 (x rs).2 :=
  rfl

theorem forked_eq {result : Except Fault α} :
    forked x rs = (result, rs') ↔ (x rs.child).1 = result ∧ rs' = rs.skip 1 := by
  constructor
  · intro h
    cases h
    exact ⟨rfl, rfl⟩
  · rintro ⟨rfl, rfl⟩
    rfl

/-- Every run of an attempt gives a value. -/
def Succeeds (x : Attempt α) : Prop :=
  ∀ rs, ∃ a, (x rs).1 = .ok a

theorem succeeds_pure (a : α) : Succeeds (pure a) :=
  fun _ => ⟨a, rfl⟩

theorem succeeds_lift (x : Draw α) : Succeeds (liftM x : Attempt α) :=
  fun rs => ⟨(x rs).1, rfl⟩

theorem Succeeds.bind (hx : x.Succeeds) (hf : ∀ a, (f a).Succeeds) : Succeeds (x >>= f) := by
  intro rs
  obtain ⟨a, ha⟩ := hx rs
  rw [bind_of_ok ha]
  exact hf a _

theorem Succeeds.map (hx : x.Succeeds) (g : α → β) : Succeeds (g <$> x) := by
  intro rs
  obtain ⟨a, ha⟩ := hx rs
  exact ⟨g a, by rw [map_apply, ha, Except.map]⟩

theorem Succeeds.forked (hx : x.Succeeds) : (forked x).Succeeds :=
  fun rs => hx rs.child

theorem Succeeds.times (hx : x.Succeeds) (n : Nat) : (times n x).Succeeds := by
  induction n with
  | zero => exact succeeds_pure _
  | succ n ih => exact hx.bind fun a => ih.bind fun as => succeeds_pure _

/-- Every run of an attempt ends in a fault. -/
def Fails (x : Attempt α) : Prop :=
  ∀ rs, ∃ e, (x rs).1 = .error e

theorem fails_throw (e : Fault) : Fails (throw e : Attempt α) :=
  fun _ => ⟨e, rfl⟩

theorem Fails.bind (hx : x.Fails) : Fails (x >>= f) := by
  intro rs
  obtain ⟨e, he⟩ := hx rs
  rw [bind_of_error he]
  exact ⟨e, rfl⟩

/-- What comes first may well give a value. -/
theorem fails_bind (hf : ∀ a, (f a).Fails) : Fails (x >>= f) := by
  intro rs
  rw [bind_apply]
  rcases x rs with ⟨e | a, rs'⟩
  · exact ⟨e, rfl⟩
  · exact hf a rs'

theorem Fails.map (hx : x.Fails) (g : α → β) : Fails (g <$> x) := by
  intro rs
  obtain ⟨e, he⟩ := hx rs
  exact ⟨e, by rw [map_apply, he, Except.map]⟩

theorem Fails.forked (hx : x.Fails) : (forked x).Fails :=
  fun rs => hx rs.child

theorem Fails.times (hx : x.Fails) {n : Nat} (hn : 0 < n) : (times n x).Fails := by
  cases n with
  | zero => exact absurd hn (Nat.lt_irrefl 0)
  | succ n => exact hx.bind

end Attempt

end PropertyTesting
