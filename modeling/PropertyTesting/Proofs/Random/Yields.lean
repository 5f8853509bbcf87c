import Mathlib.Data.Set.Operations
import PropertyTesting.Generate.Scalar
import PropertyTesting.Proofs.Generate.Attempt

/-!
What a draw can give, from whatever source it is made. Draws from a range stay
in it, picks from a list are elements of the list, and drawn characters are
printable. A draw that may fail is held to nothing when it does.
-/

namespace PropertyTesting

variable {α β : Type} {S T : Set α} {U : Set β}

/-- Every draw gives an element of a set. -/
def Draw.Yields (x : Draw α) (S : Set α) : Prop :=
  ∀ rs, (x rs).1 ∈ S

namespace Draw

theorem yields_univ (x : Draw α) : x.Yields Set.univ :=
  fun _ => trivial

theorem yields_pure {a : α} (ha : a ∈ S) : Yields (pure a) S :=
  fun _ => ha

theorem Yields.mono {x : Draw α} (h : x.Yields S) (hST : S ⊆ T) : x.Yields T :=
  fun rs => hST (h rs)

theorem Yields.bind {x : Draw α} {f : α → Draw β} (hx : x.Yields S)
    (hf : ∀ a ∈ S, (f a).Yields U) : Yields (x >>= f) U :=
  fun rs => hf _ (hx rs) (x rs).2

theorem Yields.map {x : Draw α} (h : x.Yields S) {f : α → β} (hf : ∀ a ∈ S, f a ∈ U) :
    Yields (f <$> x) U :=
  fun rs => hf _ (h rs)

/-- The case of a first draw that gives one value only. -/
theorem Yields.bind_of_single {x : Draw α} {f : α → Draw β} {a : α} (hx : x.Yields {a})
    (hf : (f a).Yields U) : Yields (x >>= f) U :=
  hx.bind fun b hb => by
    obtain rfl : b = a := hb
    exact hf

theorem Yields.map_of_single {x : Draw α} {a : α} (hx : x.Yields {a}) (f : α → β) :
    Yields (f <$> x) {f a} :=
  hx.map fun b hb => congrArg f (show b = a from hb)

theorem Yields.forked {x : Draw α} (h : x.Yields S) : x.forked.Yields S :=
  fun rs => h (fork rs).1

theorem place_range (s : Scale) (lo : Int) {width k : Nat} (h : k < width) :
    0 ≤ place s lo width k ∧ place s lo width k < width := by
  unfold place
  split
  · exact ⟨Int.emod_nonneg _ (by omega), Int.emod_lt_of_pos _ (by omega)⟩
  · omega

theorem integer_yields (s : Scale) {lo hi : Int} (h : lo ≤ hi) :
    (integer s h).Yields {n | lo ≤ n ∧ n ≤ hi} := by
  refine Yields.bind (yields_univ (below s (width_pos h))) fun k _ => yields_pure ?_
  -- The place in the range is below its width, whichever way it is counted.
  have hk := place_range s lo k.isLt
  exact ⟨by omega, by omega⟩

theorem between_yields {lo hi : Nat} (h : lo ≤ hi) :
    (between lo hi).Yields {n | lo ≤ n ∧ n ≤ hi} := by
  refine Yields.bind (yields_univ (below .wide (Nat.succ_pos (hi - lo)))) fun k _ => yields_pure ?_
  have hk := k.isLt
  exact ⟨by omega, by omega⟩

theorem choose_of_pos (vs : List α) (h : 0 < vs.length) :
    choose vs = (fun i => some (vs.get i)) <$> position h := by
  rw [choose, dif_pos h, bind_pure_comp]

/-- Each of two values is picked by its position. -/
theorem fst_choose_pair (v w : α) (rs : RandomSource) :
    (choose [v, w] rs).1 =
      some (if (position (show 0 < 2 by decide) rs).1 = 0 then v else w) := by
  rw [choose_of_pos [v, w] (show 0 < 2 by decide), map_apply]
  generalize (position (show 0 < 2 by decide) rs).1 = i
  match i with
  | 0 => rfl
  | 1 => rfl

/-- Something is picked from a list that is not empty. -/
theorem choose_cons_yields (v : α) (vs : List α) :
    (choose (v :: vs)).Yields {o | ∃ w ∈ v :: vs, o = some w} := by
  rw [choose_of_pos (v :: vs) (Nat.succ_pos _)]
  exact (yields_univ _).map fun i _ => ⟨_, List.get_mem (v :: vs) i, rfl⟩

theorem choose_yields (xs : List α) : (choose xs).Yields {o | ∀ a ∈ o, a ∈ xs} := by
  cases xs with
  | nil => exact yields_pure (by simp)
  | cons x xs =>
    refine (choose_cons_yields x xs).mono ?_
    rintro _ ⟨w, hw, rfl⟩ a ha
    obtain rfl := Option.some.inj ha
    exact hw

theorem perm_swapIfInBounds (xs : Array α) (i j : Nat) :
    (xs.swapIfInBounds i j).toList.Perm xs.toList := by
  unfold Array.swapIfInBounds
  split
  · split
    · exact (Array.swap_perm _ _).toList
    · exact .refl _
  · exact .refl _

/-- Every element is kept, and none appears that was not there before. -/
theorem shuffleFrom_yields (i : Nat) (xs : Array α) :
    (shuffleFrom i xs).Yields {ys | ys.toList.Perm xs.toList} := by
  induction i generalizing xs with
  | zero => exact yields_pure (.refl _)
  | succ i ih =>
    refine Yields.bind (yields_univ _) fun j _ => (ih _).mono fun ys hys => ?_
    exact List.Perm.trans hys (perm_swapIfInBounds xs _ _)

theorem shuffle_yields (xs : Array α) :
    (shuffle xs).Yields {ys | ys.toList.Perm xs.toList} :=
  shuffleFrom_yields _ xs

/-- The printable ASCII characters. -/
def printableChars : Set Char :=
  {c | ' ' ≤ c ∧ c ≤ '~'}

theorem mem_printableChars {c : Char} :
    c ∈ printableChars ↔ 32 ≤ c.toNat ∧ c.toNat ≤ 126 := by
  rw [printableChars, Set.mem_ofPred_eq, Char.le_def, Char.le_def, UInt32.le_iff_toNat_le,
    UInt32.le_iff_toNat_le]
  rfl

theorem printable_yields : printable.Yields printableChars := by
  have hall : ∀ i : Fin 95,
      ' ' ≤ Char.ofNat (' '.toNat + i) ∧ Char.ofNat (' '.toNat + i) ≤ '~' := by
    decide
  exact Yields.bind (yields_univ (below .byte (show 0 < 95 by decide)))
    fun i _ => yields_pure (hall i)

theorem printables_yields (n : Nat) :
    (printables n).Yields {cs | cs.length = n ∧ ∀ c ∈ cs, c ∈ printableChars} := by
  induction n with
  | zero => exact yields_pure ⟨rfl, by simp⟩
  | succ n ih =>
    refine printable_yields.bind fun c hc => ih.bind fun cs hcs => yields_pure ⟨?_, ?_⟩
    · simp [hcs.1]
    · exact List.forall_mem_cons.2 ⟨hc, hcs.2⟩

end Draw

/-- Every draw that does not fail gives an element of a set. -/
def Attempt.Yields (x : Attempt α) (S : Set α) : Prop :=
  ∀ rs a, (x rs).1 = .ok a → a ∈ S

namespace Attempt

theorem yields_pure {a : α} (ha : a ∈ S) : Yields (pure a) S := by
  rintro rs b hb
  obtain rfl := Except.ok.inj hb
  exact ha

theorem yields_throw (e : Fault) : Yields (throw e : Attempt α) S := by
  rintro rs a ha
  cases ha

theorem Yields.mono {x : Attempt α} (h : x.Yields S) (hST : S ⊆ T) : x.Yields T :=
  fun rs a ha => hST (h rs a ha)

theorem Yields.bind {x : Attempt α} {f : α → Attempt β} (hx : x.Yields S)
    (hf : ∀ a ∈ S, (f a).Yields U) : Yields (x >>= f) U := by
  intro rs b hb
  rw [bind_apply] at hb
  rcases hxrs : x rs with ⟨_ | a, rs'⟩
  · simp [hxrs] at hb
  · rw [hxrs] at hb
    exact hf a (hx rs a (by rw [hxrs])) rs' b hb

/-- A draw that cannot fail as one that may. -/
theorem yields_lift {x : Draw α} (h : x.Yields S) : Yields (liftM x : Attempt α) S := by
  intro rs a ha
  obtain rfl : (x rs).1 = a := Except.ok.inj ha
  exact h rs

theorem Yields.forked {x : Attempt α} (h : x.Yields S) : x.forked.Yields S :=
  fun rs a ha => h (Draw.fork rs).1 a ha

theorem Yields.times {x : Attempt α} (h : x.Yields S) (n : Nat) :
    (times n x).Yields {as | as.length = n ∧ ∀ a ∈ as, a ∈ S} := by
  induction n with
  | zero => exact yields_pure ⟨rfl, by simp⟩
  | succ n ih =>
    refine h.bind fun a ha => ih.bind fun as has => yields_pure ⟨?_, ?_⟩
    · simp [has.1]
    · exact List.forall_mem_cons.2 ⟨ha, has.2⟩

end Attempt

end PropertyTesting
