import Mathlib.Data.Nat.ModEq
import Mathlib.Data.Nat.Prime.Basic
import Mathlib.Data.UInt
import PropertyTesting.Proofs.Generate.Attempt
import PropertyTesting.Random.Range

/-!
One period of a random source. The engine walks in steps of an odd number, which is
a unit among the words, so it comes back to a state after as many draws as there are
words and not before; and what it shows of a state can be undone, a shift that was
folded in as well as an odd product. In any period every word comes up exactly once.
-/

namespace PropertyTesting

namespace Engine

/-- Fold a word, shifted to the right, into itself. -/
def fold (k z : UInt64) : UInt64 :=
  z ^^^ (z >>> k)

/-- Undo the folding in of a shift by a third of the word size or more. -/
def unfold (k z : UInt64) : UInt64 :=
  z ^^^ (z >>> k) ^^^ (z >>> k >>> k)

theorem mix_eq_fold (z : UInt64) :
    mix z =
      fold 31 (fold 27 (fold 30 (z + golden) * 0xbf58476d1ce4e5b9) * 0x94d049bb133111eb) :=
  rfl

section Fold

variable {k : UInt64}

/-- Nothing is left of a word that is shifted three times by a third of its size. -/
theorem shiftRight_thrice (hlt : k.toNat < 64) (hk : 64 ≤ 3 * k.toNat) (z : UInt64) :
    z >>> k >>> k >>> k = 0 := by
  apply UInt64.toNat_inj.1
  simp only [UInt64.toNat_shiftRight, Nat.mod_eq_of_lt hlt, ← Nat.shiftRight_add]
  rw [Nat.shiftRight_eq_div_pow]
  apply Nat.div_eq_of_lt
  calc z.toNat < 2 ^ 64 := z.toNat_lt
    _ ≤ 2 ^ (k.toNat + k.toNat + k.toNat) := Nat.pow_le_pow_right (by decide) (by omega)

theorem xor_cancel_left (z w : UInt64) : z ^^^ (z ^^^ w) = w := by
  rw [← UInt64.xor_assoc, UInt64.xor_self, UInt64.zero_xor]

theorem unfold_fold (hlt : k.toNat < 64) (hk : 64 ≤ 3 * k.toNat) (z : UInt64) :
    unfold k (fold k z) = z := by
  simp only [fold, unfold, UInt64.shiftRight_xor, shiftRight_thrice hlt hk, UInt64.xor_assoc,
    xor_cancel_left, UInt64.xor_zero, UInt64.xor_self]

theorem fold_unfold (hlt : k.toNat < 64) (hk : 64 ≤ 3 * k.toNat) (z : UInt64) :
    fold k (unfold k z) = z := by
  have hcomm : fold k (unfold k z) = unfold k (fold k z) := by
    simp only [fold, unfold, UInt64.shiftRight_xor]
    ac_rfl
  rw [hcomm, unfold_fold hlt hk]

theorem fold_bijective (hlt : k.toNat < 64) (hk : 64 ≤ 3 * k.toNat) :
    Function.Bijective (fold k) :=
  Function.bijective_iff_has_inverse.2 ⟨unfold k, unfold_fold hlt hk, fold_unfold hlt hk⟩

end Fold

/-- Odd words are prime to the number of words. -/
theorem isUnit_of_odd {c : UInt64} (hc : Odd c.toNat) : IsUnit c := by
  have hcop : c.toNat.Coprime (2 ^ 64) := hc.coprime_two_right.pow_right 64
  obtain ⟨m, -, hm⟩ := Nat.exists_mul_mod_eq_one_of_coprime hcop (by decide)
  refine IsUnit.of_mul_eq_one (UInt64.ofNat m) (UInt64.toNat_inj.1 ?_)
  rw [UInt64.toNat_mul, UInt64.toNat_ofNat', Nat.mul_mod_mod, hm]
  rfl

theorem mul_bijective {c : UInt64} (hc : Odd c.toNat) :
    Function.Bijective fun z : UInt64 => z * c :=
  (isUnit_of_odd hc).unit.mulRight_bijective

theorem mix_bijective : Function.Bijective mix := by
  have hadd : Function.Bijective fun z : UInt64 => z + golden := AddGroup.addRight_bijective golden
  have hfirst := (mul_bijective (c := 0xbf58476d1ce4e5b9) (by decide)).comp
    ((fold_bijective (k := 30) (by decide) (by decide)).comp hadd)
  have hsecond := (mul_bijective (c := 0x94d049bb133111eb) (by decide)).comp
    ((fold_bijective (k := 27) (by decide) (by decide)).comp hfirst)
  have hthird := (fold_bijective (k := 31) (by decide) (by decide)).comp hsecond
  simpa only [Function.comp_def, ← mix_eq_fold] using hthird

theorem odd_or_one (z : UInt64) : Odd (z ||| 1).toNat := by
  rw [Nat.odd_iff, Nat.mod_two_eq_one_iff_testBit_zero, UInt64.toNat_or, Nat.testBit_or]
  simp

theorem odd_gamma_ofSeed (seed : UInt64) : Odd (ofSeed seed).gamma.toNat :=
  odd_or_one _

end Engine

namespace RandomSource

open Draw (period)

theorem skip_skip (rs : RandomSource) (m n : Nat) : (rs.skip m).skip n = rs.skip (m + n) := by
  induction m generalizing rs with
  | zero => rw [Nat.zero_add]; rfl
  | succ m ih => rw [Nat.succ_add]; exact ih rs.next.2

/-- Every draw takes the engine one step further and changes nothing else. -/
theorem skip_eq (rs : RandomSource) (n : Nat) :
    rs.skip n =
      { rs with engine.state := rs.engine.state + .ofNat n * rs.engine.gamma } := by
  induction n generalizing rs with
  | zero => simp [skip]
  | succ n ih =>
    have hstep : rs.engine.state + rs.engine.gamma + .ofNat n * rs.engine.gamma =
        rs.engine.state + .ofNat (n + 1) * rs.engine.gamma := by
      rw [UInt64.ofNat_add, UInt64.add_mul, UInt64.add_assoc, UInt64.add_comm (_ * _)]
      congr 2
      exact (UInt64.one_mul _).symm
    rw [skip, ih, ← hstep]
    rfl

theorem gamma_skip (rs : RandomSource) (n : Nat) :
    (rs.skip n).engine.gamma = rs.engine.gamma := by
  rw [skip_eq]

theorem state_skip (rs : RandomSource) (n : Nat) :
    (rs.skip n).engine.state = rs.engine.state + .ofNat n * rs.engine.gamma := by
  rw [skip_eq]

theorem word_skip (rs : RandomSource) (n : Nat) :
    (rs.skip n).next.1 = Engine.mix (rs.skip (n + 1)).engine.state := by
  rw [← skip_skip]
  rfl

theorem ofNat_eq_ofNat {m n : Nat} : UInt64.ofNat m = .ofNat n ↔ m ≡ n [MOD period] := by
  rw [UInt64.ofNat_eq_iff_mod_eq_toNat, UInt64.toNat_ofNat']
  rfl

section Period

variable {rs : RandomSource} {m n : Nat}

/-- The engine is in the same state again after every multiple of the period, and at no
other time. -/
theorem state_skip_eq_iff (hodd : Odd rs.engine.gamma.toNat) :
    (rs.skip m).engine.state = (rs.skip n).engine.state ↔ m ≡ n [MOD period] := by
  rw [state_skip, state_skip, UInt64.add_right_inj, (Engine.isUnit_of_odd hodd).mul_left_inj,
    ofNat_eq_ofNat]

theorem exists_state_skip (hodd : Odd rs.engine.gamma.toNat) (z : UInt64) :
    ∃ n < period, (rs.skip n).engine.state = z := by
  obtain ⟨k, hk⟩ := (Engine.mul_bijective hodd).surjective (z - rs.engine.state)
  refine ⟨k.toNat, k.toNat_lt, ?_⟩
  have hstep : k * rs.engine.gamma = z - rs.engine.state := hk
  rw [state_skip, UInt64.ofNat_toNat, hstep, add_sub_cancel]

theorem word_skip_eq_iff (hodd : Odd rs.engine.gamma.toNat) :
    (rs.skip m).next.1 = (rs.skip n).next.1 ↔ m ≡ n [MOD period] := by
  rw [word_skip, word_skip, Engine.mix_bijective.injective.eq_iff, state_skip_eq_iff hodd]
  exact ⟨Nat.ModEq.add_right_cancel' 1, Nat.ModEq.add_right 1⟩

theorem exists_word_skip (hodd : Odd rs.engine.gamma.toNat) (w : UInt64) :
    ∃ n < period, (rs.skip n).next.1 = w := by
  obtain ⟨z, rfl⟩ := Engine.mix_bijective.surjective w
  have hodd' : Odd (rs.skip 1).engine.gamma.toNat := by rwa [gamma_skip]
  obtain ⟨n, hn, hstate⟩ := exists_state_skip hodd' z
  rw [skip_skip, Nat.add_comm] at hstate
  exact ⟨n, hn, by rw [word_skip, hstate]⟩

/-- In one period of draws every word comes up once. -/
theorem existsUnique_word_skip (hodd : Odd rs.engine.gamma.toNat) (w : UInt64) :
    ∃! n, n < period ∧ (rs.skip n).next.1 = w := by
  obtain ⟨n, hn, hword⟩ := exists_word_skip hodd w
  refine ⟨n, ⟨hn, hword⟩, fun m hm => ?_⟩
  have hmod := (word_skip_eq_iff hodd).1 (hm.2.trans hword.symm)
  exact hmod.eq_of_lt_of_lt hm.1 hn

/-- A source is the same again after every multiple of the period, and at no other
time. -/
theorem skip_eq_iff (hodd : Odd rs.engine.gamma.toNat) :
    rs.skip m = rs.skip n ↔ m ≡ n [MOD period] := by
  rw [← state_skip_eq_iff hodd]
  constructor
  · intro h
    rw [h]
  · intro h
    rw [state_skip, state_skip] at h
    rw [skip_eq, skip_eq, h]

end Period

/-- The sources that come from a seed, by drawing words from them. -/
inductive Reachable : RandomSource → Prop where
  | seeded (seed : UInt64) : Reachable (seeded seed)
  | next {rs : RandomSource} : Reachable rs → Reachable rs.next.2

theorem Reachable.skip {rs : RandomSource} (h : Reachable rs) (n : Nat) :
    Reachable (rs.skip n) := by
  induction n generalizing rs with
  | zero => exact h
  | succ n ih => exact ih h.next

theorem Reachable.odd_gamma {rs : RandomSource} (h : Reachable rs) :
    Odd rs.engine.gamma.toNat := by
  induction h with
  | seeded seed => exact Engine.odd_gamma_ofSeed seed
  | next _ ih => exact ih

/-- Random sources have the full period. The step of an engine is odd and its scrambling
loses nothing, so any whole period of draws from a source shows every word once. Forks
that are taken less than a period apart have different seeds, and sources of one seed are
equal just when the numbers of draws that were made from them agree modulo the period. -/
theorem full_period (seed : UInt64) :
    Odd (Engine.ofSeed seed).gamma.toNat ∧ Function.Bijective Engine.mix ∧
    (∀ n w, ∃! i, i < period ∧ (Draw.word ((seeded seed).skip (n + i))).1 = w) ∧
    (∀ n i, 0 < i → i < period →
      (Draw.fork ((seeded seed).skip n)).1.seed ≠
        (Draw.fork ((seeded seed).skip (n + i))).1.seed) ∧
    ∀ m n, ((seeded seed).skip m == (seeded seed).skip n) = true ↔ m ≡ n [MOD period] := by
  have hreach (n : Nat) : Reachable ((seeded seed).skip n) := (Reachable.seeded seed).skip n
  refine ⟨Engine.odd_gamma_ofSeed seed, Engine.mix_bijective, fun n w => ?_,
    fun n i hpos hlt hseed => ?_, fun m n => ?_⟩
  · simp only [← skip_skip]
    exact existsUnique_word_skip (hreach n).odd_gamma w
  · -- The seed of a fork is the next word of its parent.
    have hword : ((seeded seed).skip n).next.1 = ((seeded seed).skip (n + i)).next.1 := hseed
    have hmod := (word_skip_eq_iff (hreach 0).odd_gamma).1 hword
    have hzero : 0 ≡ i [MOD period] := Nat.ModEq.add_left_cancel' n hmod
    exact absurd (hzero.eq_of_lt_of_lt (Nat.zero_lt_of_lt hlt) hlt) hpos.ne
  · rw [beq_iff_eq]
    exact skip_eq_iff (hreach 0).odd_gamma

/-- The first two forks of a source have different seeds. -/
theorem full_period_forks :
    0 < 1 ∧ 1 < period ∧
      (Draw.fork ((seeded 42).skip 0)).1.seed ≠ (Draw.fork ((seeded 42).skip (0 + 1))).1.seed :=
  ⟨by decide, by decide, (full_period 42).2.2.2.1 0 1 (by decide) (by decide)⟩

end RandomSource

end PropertyTesting
