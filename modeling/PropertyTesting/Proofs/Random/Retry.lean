import PropertyTesting.Proofs.Generate.Fork
import PropertyTesting.Proofs.Generate.Within
import PropertyTesting.Proofs.Random.Period

/-!
How long a draw from a range lasts. Raw words are drawn until one is accepted, and
nothing in the loop bounds how many are rejected. It ends because a word of zero is
accepted for every range and, from whatever state of a seeded source, comes up within
one period.
-/

namespace PropertyTesting

variable {α : Type} {rs rs' : RandomSource}

namespace Scale

variable {s : Scale} {n : Nat}

/-- A raw draw takes one word. -/
theorem raw_snd (s : Scale) (rs : RandomSource) : (s.raw rs).2 = rs.skip 1 := by
  cases s with
  | wide => rfl
  | half => rfl
  | byte => rfl

/-- The lower part of a word of zero lies in every zone. -/
theorem scale?_of_word_zero (h : 0 < n) (hword : rs.next.1 = 0) :
    s.scale? h (s.raw rs).1 = some ⟨0, h⟩ := by
  have hraw : ((s.raw rs).1 : Nat) = 0 := by
    cases s with
    | wide => exact congrArg UInt64.toNat hword
    | half => exact congrArg (fun w : UInt64 => ((w >>> 32).toUInt32).toNat) hword
    | byte => exact congrArg (fun w : UInt64 => ((w >>> 32).toUInt32).toNat) hword
  simp [scale?, hraw]

end Scale

namespace Draw

/-- The loop of raw draws that goes on until one is accepted: from a source it ends, after
so many of them, with a value and leaves a source behind. -/
inductive Ends (s : Scale) {n : Nat} (h : 0 < n) :
    RandomSource → Nat → Fin n → RandomSource → Prop where
  | accepted {rs : RandomSource} {k : Fin n} :
      s.scale? h (s.raw rs).1 = some k → Ends s h rs 1 k (s.raw rs).2
  | rejected {rs rs' : RandomSource} {draws : Nat} {k : Fin n} :
      s.scale? h (s.raw rs).1 = none → Ends s h (s.raw rs).2 draws k rs' →
      Ends s h rs (draws + 1) k rs'

section Loop

variable {s : Scale} {n : Nat} {h : 0 < n} {k : Fin n} {draws : Nat}

theorem Ends.pos (hends : Ends s h rs draws k rs') : 0 < draws := by
  cases hends with
  | accepted => exact Nat.one_pos
  | rejected => exact Nat.succ_pos _

/-- The loop takes one word from the source each time it goes round. -/
theorem Ends.source (hends : Ends s h rs draws k rs') : rs' = rs.skip draws := by
  induction hends with
  | accepted => exact s.raw_snd _
  | rejected _ _ ih => rw [ih, s.raw_snd, RandomSource.skip_skip, Nat.add_comm]

/-- A bound on the attempts that the loop does not reach makes no difference. -/
theorem Ends.retry (hends : Ends s h rs draws k rs') {attempts : Nat} (hle : draws ≤ attempts) :
    retry s h attempts rs = (k, rs') := by
  induction hends generalizing attempts with
  | accepted hk =>
    obtain ⟨attempts, rfl⟩ : ∃ m, attempts = m + 1 := ⟨attempts - 1, by omega⟩
    rw [Draw.retry, bind_apply, hk]
    rfl
  | rejected hnone _ ih =>
    obtain ⟨attempts, rfl⟩ : ∃ m, attempts = m + 1 := ⟨attempts - 1, by omega⟩
    rw [Draw.retry, bind_apply, hnone]
    exact ih (by omega)

/-- The loop ends with a word of zero if not before. -/
theorem exists_ends_of_word_zero (s : Scale) (h : 0 < n) {m : Nat}
    (hword : (rs.skip m).next.1 = 0) :
    ∃ draws k rs', draws ≤ m + 1 ∧ Ends s h rs draws k rs' := by
  induction m generalizing rs with
  | zero =>
    have hk : s.scale? h (s.raw rs).1 = some ⟨0, h⟩ := Scale.scale?_of_word_zero h hword
    exact ⟨1, _, _, Nat.le_refl 1, .accepted hk⟩
  | succ m ih =>
    cases hk : s.scale? h (s.raw rs).1 with
    | some k => exact ⟨1, k, _, by omega, .accepted hk⟩
    | none =>
      have hnext : ((s.raw rs).2.skip m).next.1 = 0 := by rwa [s.raw_snd]
      obtain ⟨draws, k, rs', hle, hends⟩ := ih hnext
      exact ⟨draws + 1, k, rs', by omega, .rejected hk hends⟩

end Loop

/-- A draw below `n` is over after so many words. There is at least one, no more than a
period has, and the source is left after them. -/
structure Finishes (s : Scale) {n : Nat} (h : 0 < n) (rs : RandomSource) (draws : Nat)
    (k : Fin n) : Prop where
  pos : 0 < draws
  le_period : draws ≤ period
  ends : Ends s h rs draws k (rs.skip draws)

theorem exists_finishes (hrs : rs.Reachable) (s : Scale) {n : Nat} (h : 0 < n) :
    ∃ draws k, Finishes s h rs draws k := by
  obtain ⟨m, hm, hword⟩ := RandomSource.exists_word_skip hrs.odd_gamma 0
  obtain ⟨draws, k, rs', hle, hends⟩ := exists_ends_of_word_zero s h hword
  obtain rfl := hends.source
  exact ⟨draws, k, hends.pos, by omega, hends⟩

namespace Finishes

variable {s : Scale} {n draws : Nat} {h : 0 < n} {k : Fin n}

theorem below_eq (hf : Finishes s h rs draws k) : below s h rs = (k, rs.skip draws) :=
  hf.ends.retry hf.le_period

theorem integer_eq {lo hi : Int} {h : lo ≤ hi} {k : Fin (hi - lo + 1).toNat}
    (hf : Finishes s (width_pos h) rs draws k) :
    integer s h rs = (lo + place s lo (hi - lo + 1).toNat k, rs.skip draws) := by
  rw [integer, bind_apply, hf.below_eq]
  rfl

theorem between_eq {lo hi : Nat} {k : Fin (hi - lo).succ}
    (hf : Finishes .wide (Nat.succ_pos _) rs draws k) :
    between lo hi rs = (lo + k, rs.skip draws) := by
  rw [between, bind_apply, hf.below_eq]
  rfl

theorem printable_eq {k : Fin 95} (hf : Finishes .byte (show 0 < 95 by decide) rs draws k) :
    printable rs = (.ofNat (' '.toNat + k), rs.skip draws) := by
  rw [printable, bind_apply, hf.below_eq]
  rfl

end Finishes

end Draw

namespace Arbitrary

open Draw

section Samples

variable {β γ : Type}

/-- A drawn value that is shrunk after a last change to it. -/
theorem sample_shrinking (draw : Draw β) (more : β → Draw γ) (f : γ → α) (shrink : α → Row α) :
    (shrinking (do let b ← draw; f <$> more b) shrink).sample = (do
      let b ← draw
      (fun c => .shrinking shrink (f c)) <$> (liftM (more b) : Attempt γ)) :=
  rfl

theorem sample_longRange {lo hi : Int64} (h : lo.toInt ≤ hi.toInt) :
    (longRange lo hi).sample = (do
      let n ← integer .wide h
      return .shrinking (.ofList ∘ Shrink.long (Shrink.destination lo hi)) (.ofInt n)) := by
  rw [longRange, dif_pos h]
  exact sample_shrinking (integer .wide h) pure Int64.ofInt _

theorem sample_stringOf {min max : Nat} (h : min ≤ max) :
    (stringOf min max).sample = (do
      let n ← between min max
      (fun cs => .shrinking (Shrink.string min) (.ofList cs)) <$>
        (liftM (printables n) : Attempt (List Char))) := by
  rw [stringOf, if_neg (Nat.not_lt.2 h)]
  exact sample_shrinking (between min max) printables String.ofList _

theorem sample_ofDraw (draw : Draw β) (f : β → α) :
    (ofDraw (do let b ← draw; return f b)).sample = (do let b ← draw; return .plain (f b)) :=
  rfl

end Samples

theorem longRange_finishes (hrs : rs.Reachable) {lo hi : Int64} (h : lo.toInt ≤ hi.toInt) :
    ∃ draws k x, Finishes .wide (width_pos h) rs draws k ∧
      (longRange lo hi).sample rs = (.ok x, rs.skip draws) ∧ lo ≤ x.value ∧ x.value ≤ hi := by
  obtain ⟨draws, k, hf⟩ := exists_finishes hrs .wide (width_pos h)
  obtain ⟨x, hx⟩ : ∃ x, (longRange lo hi).sample rs = (.ok x, rs.skip draws) := by
    rw [sample_longRange h, Attempt.lift_bind_apply, hf.integer_eq]
    exact ⟨_, rfl⟩
  have hall : x.shrinks.All {n | lo ≤ n ∧ n ≤ hi} :=
    (within_longRange lo hi).sample rs x (congrArg Prod.fst hx)
  exact ⟨draws, k, x, hf, hx, x.root ▸ hall.root⟩

theorem stringOf_finishes (hrs : rs.Reachable) {min max : Nat} (h : min ≤ max) :
    ∃ draws k, Finishes .wide (Nat.succ_pos (max - min)) rs draws k ∧ min + k ≤ max ∧
      (stringOf min max).sample rs =
        ((fun cs => .shrinking (Shrink.string min) (.ofList cs)) <$>
          (liftM (printables (min + k)) : Attempt (List Char))) (rs.skip draws) := by
  obtain ⟨draws, k, hf⟩ := exists_finishes hrs .wide (Nat.succ_pos (max - min))
  refine ⟨draws, k, hf, by omega, ?_⟩
  rw [sample_stringOf h, Attempt.lift_bind_apply, hf.between_eq]

theorem list_finishes (hrs : rs.Reachable) (a : Arbitrary α) {min max : Nat} (h : min ≤ max) :
    ∃ draws k, Finishes .wide (Nat.succ_pos (max - min)) rs draws k ∧ min + k ≤ max ∧
      (a.list min max).sample rs =
        ((fun ts => .ofTree (.list ts min)) <$> Attempt.times (min + k) a.element)
          (rs.skip draws) := by
  obtain ⟨draws, k, hf⟩ := exists_finishes hrs .wide (Nat.succ_pos (max - min))
  refine ⟨draws, k, hf, by omega, ?_⟩
  rw [sample_list a h, Attempt.lift_bind_apply, hf.between_eq]

theorem ofArray_finishes (hrs : rs.Reachable) (values : Array α) (h : 0 < values.size) :
    ∃ draws k v, Finishes .wide h rs draws k ∧ values[(k : Nat)]? = some v ∧
      (ofArray values h).sample rs = (.ok (.plain v), rs.skip draws) := by
  obtain ⟨draws, k, hf⟩ := exists_finishes hrs .wide h
  refine ⟨draws, k, _, hf, Array.getElem?_eq_getElem k.isLt, ?_⟩
  rw [ofArray, sample_ofDraw, Attempt.lift_bind_apply, hf.below_eq]
  rfl

theorem oneOf_finishes (hrs : rs.Reachable) (first : Arbitrary α) (rest : List (Arbitrary α)) :
    ∃ draws k, Finishes .wide (show 0 < (first :: rest).length from Nat.succ_pos _) rs draws k ∧
      (oneOf first rest).sample rs = ((first :: rest).get k).sample (rs.skip draws) := by
  obtain ⟨draws, k, hf⟩ :=
    exists_finishes hrs .wide (show 0 < (first :: rest).length from Nat.succ_pos _)
  refine ⟨draws, k, hf, ?_⟩
  rw [sample_oneOf, Attempt.lift_bind_apply, hf.below_eq]

theorem printable_finishes (hrs : rs.Reachable) :
    ∃ draws k c, Finishes .byte (show 0 < 95 by decide) rs draws k ∧
      printable rs = (c, rs.skip draws) ∧ ' ' ≤ c ∧ c ≤ '~' := by
  obtain ⟨draws, k, hf⟩ := exists_finishes hrs .byte (show 0 < 95 by decide)
  have hc : (printable rs).1 ∈ printableChars := printable_yields rs
  rw [hf.printable_eq] at hc
  exact ⟨draws, k, _, hf, hf.printable_eq, hc⟩

/-- No range draw hangs. From every source that comes from a seed, the loop behind a draw
below any number ends after at least one and at most a period of words. So do the draws
that decide an integer in a range, the length of a text or of a list, the place in an
array, the member of a choice, and a printable character; what they decide lies in its
range, and the source is left right after their words. -/
theorem range_draws_finish (hrs : rs.Reachable) :
    (∀ (s : Scale) {n : Nat} (h : 0 < n),
      ∃ draws k, Finishes s h rs draws k ∧ below s h rs = (k, rs.skip draws)) ∧
    (∀ {lo hi : Int64} (h : lo.toInt ≤ hi.toInt),
      ∃ draws k x, Finishes .wide (width_pos h) rs draws k ∧
        (longRange lo hi).sample rs = (.ok x, rs.skip draws) ∧ lo ≤ x.value ∧ x.value ≤ hi) ∧
    (∀ {min max : Nat}, min ≤ max →
      ∃ draws k, Finishes .wide (Nat.succ_pos (max - min)) rs draws k ∧ min + k ≤ max ∧
        (stringOf min max).sample rs =
          ((fun cs => .shrinking (Shrink.string min) (.ofList cs)) <$>
            (liftM (printables (min + k)) : Attempt (List Char))) (rs.skip draws)) ∧
    (∀ {α : Type} (a : Arbitrary α) {min max : Nat}, min ≤ max →
      ∃ draws k, Finishes .wide (Nat.succ_pos (max - min)) rs draws k ∧ min + k ≤ max ∧
        (a.list min max).sample rs =
          ((fun ts => .ofTree (.list ts min)) <$> Attempt.times (min + k) a.element)
            (rs.skip draws)) ∧
    (∀ {α : Type} (values : Array α) (h : 0 < values.size),
      ∃ draws k v, Finishes .wide h rs draws k ∧ values[(k : Nat)]? = some v ∧
        (ofArray values h).sample rs = (.ok (.plain v), rs.skip draws)) ∧
    (∀ {α : Type} (first : Arbitrary α) (rest : List (Arbitrary α)),
      ∃ draws k,
        Finishes .wide (show 0 < (first :: rest).length from Nat.succ_pos _) rs draws k ∧
        (oneOf first rest).sample rs = ((first :: rest).get k).sample (rs.skip draws)) ∧
    ∃ draws k c, Finishes .byte (show 0 < 95 by decide) rs draws k ∧
      printable rs = (c, rs.skip draws) ∧ ' ' ≤ c ∧ c ≤ '~' := by
  refine ⟨fun s n h => ?_, longRange_finishes hrs, stringOf_finishes hrs, list_finishes hrs,
    ofArray_finishes hrs, oneOf_finishes hrs, printable_finishes hrs⟩
  obtain ⟨draws, k, hf⟩ := exists_finishes hrs s h
  exact ⟨draws, k, hf, hf.below_eq⟩

/-- The widest range of integers, texts of one to three characters, and lists of up to two
coins. -/
theorem range_draws_finish_widest :
    let rs := RandomSource.seeded 42
    rs.Reachable ∧
    (∃ draws k x,
      Finishes .wide (width_pos (show Int64.minValue.toInt ≤ Int64.maxValue.toInt by decide))
        rs draws k ∧
      long.sample rs = (.ok x, rs.skip draws) ∧
      Int64.minValue ≤ x.value ∧ x.value ≤ Int64.maxValue) ∧
    (∃ draws k, Finishes .wide (Nat.succ_pos (3 - 1)) rs draws k ∧ 1 + (k : Nat) ≤ 3 ∧
      (stringOf 1 3).sample rs =
        ((fun cs => .shrinking (Shrink.string 1) (.ofList cs)) <$>
          (liftM (printables (1 + k)) : Attempt (List Char))) (rs.skip draws)) ∧
    (∃ draws k, Finishes .wide (Nat.succ_pos (2 - 0)) rs draws k ∧ 0 + (k : Nat) ≤ 2 ∧
      (bool.list 0 2).sample rs =
        ((fun ts => .ofTree (.list ts 0)) <$> Attempt.times (0 + k) bool.element)
          (rs.skip draws)) ∧
    ∃ draws k v, Finishes .wide (show 0 < #[2, 3, 5].size by decide) rs draws k ∧
      #[2, 3, 5][(k : Nat)]? = some v ∧
      (ofArray #[2, 3, 5] (by decide)).sample rs = (.ok (.plain v), rs.skip draws) :=
  have hrs : RandomSource.Reachable (.seeded 42) := .seeded 42
  have hdraws := range_draws_finish hrs
  ⟨hrs, hdraws.2.1 (by decide), hdraws.2.2.1 (show 1 ≤ 3 by decide),
    hdraws.2.2.2.1 bool (show 0 ≤ 2 by decide), hdraws.2.2.2.2.1 #[2, 3, 5] (by decide)⟩

end Arbitrary

end PropertyTesting
