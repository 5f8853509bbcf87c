import Mathlib.Data.Nat.Digits.Defs
import PropertyTesting.Proofs.Generate.Attempt

/-!
Bytes from a source. A source shows one endless row of words, and so of bytes, eight of
them to a word and the lowest first. Any number of bytes is the beginning of that row, and
it costs as many words as it touches. Two pieces make up one piece if the first one uses
up its last word.
-/

namespace PropertyTesting

namespace RandomSource

/-- The words that a source shows next. -/
def words (rs : RandomSource) (k : Nat) : List UInt64 :=
  (List.range k).map fun i => (Draw.word (rs.skip i)).1

theorem words_succ (rs : RandomSource) (k : Nat) :
    rs.words (k + 1) = rs.next.1 :: rs.next.2.words k := by
  rw [words, List.range_succ_eq_map, List.map_cons, List.map_map]
  rfl

@[simp] theorem length_words (rs : RandomSource) (k : Nat) : (rs.words k).length = k := by
  simp [words]

theorem words_add (rs : RandomSource) (j k : Nat) :
    rs.words (j + k) = rs.words j ++ (rs.skip j).words k := by
  induction j generalizing rs with
  | zero => rw [Nat.zero_add]; rfl
  | succ j ih =>
    rw [Nat.succ_add, words_succ, words_succ, ih]
    rfl

end RandomSource

namespace Draw

open RandomSource (words_succ words_add)

@[simp] theorem length_littleEndian (w : UInt64) : (littleEndian w).length = 8 := by
  simp [littleEndian]

theorem toNat_byte (w : UInt64) {i : Nat} (hi : i < 8) :
    (w >>> (8 * i).toUInt64).toUInt8.toNat = w.toNat / 256 ^ i % 256 := by
  have hlt : 8 * i < 64 := by omega
  have hshift : (8 * i).toUInt64.toNat = 8 * i :=
    UInt64.toNat_ofNat_of_lt' (Nat.lt_trans hlt (by decide))
  rw [UInt64.toNat_toUInt8, UInt64.toNat_shiftRight, hshift, Nat.mod_eq_of_lt hlt,
    Nat.shiftRight_eq_div_pow, Nat.pow_mul]

/-- The lowest digits of a number make up what is left of it. -/
theorem ofDigits_range (b n k : Nat) :
    Nat.ofDigits b ((List.range k).map fun i => n / b ^ i % b) = n % b ^ k := by
  induction k with
  | zero => simp [Nat.mod_one]
  | succ k ih =>
    rw [List.range_succ, List.map_append, Nat.ofDigits_append, ih, List.length_map,
      List.length_range, List.map_singleton, Nat.ofDigits_singleton, Nat.mod_pow_succ]

/-- The bytes of a word are its digits, the lowest first. -/
theorem ofDigits_littleEndian (w : UInt64) :
    Nat.ofDigits 256 ((littleEndian w).map UInt8.toNat) = w.toNat := by
  have hdigits : (littleEndian w).map UInt8.toNat =
      (List.range 8).map fun i => w.toNat / 256 ^ i % 256 := by
    rw [littleEndian, List.map_map]
    exact List.map_congr_left fun i hi => toNat_byte w (List.mem_range.1 hi)
  rw [hdigits, ofDigits_range]
  exact Nat.mod_eq_of_lt w.toNat_lt

@[simp] theorem bytes_zero (rs : RandomSource) : bytes 0 rs = ([], rs) := by
  rw [bytes, if_pos rfl]
  rfl

/-- The first word gives up to eight bytes. -/
theorem bytes_of_pos {n : Nat} (hn : 0 < n) (rs : RandomSource) :
    bytes n rs = ((littleEndian rs.next.1).take n ++ (bytes (n - 8) rs.next.2).1,
      (bytes (n - 8) rs.next.2).2) := by
  rw [bytes, if_neg (by omega)]
  rfl

/-- Bytes are the beginning of the row of all bytes, and whole words are drawn for them. -/
theorem bytes_eq (n : Nat) (rs : RandomSource) :
    bytes n rs = (((rs.words ((n + 7) / 8)).flatMap littleEndian).take n,
      rs.skip ((n + 7) / 8)) := by
  induction n using Nat.strong_induction_on generalizing rs with
  | h n ih =>
    rcases Nat.eq_zero_or_pos n with rfl | hn
    · rw [bytes_zero]
      rfl
    · have hwords : (n + 7) / 8 = (n - 8 + 7) / 8 + 1 := by omega
      rw [bytes_of_pos hn, ih (n - 8) (by omega), hwords, words_succ, List.flatMap_cons,
        List.take_append, length_littleEndian]
      rfl

theorem length_flatMap_littleEndian (ws : List UInt64) :
    (ws.flatMap littleEndian).length = 8 * ws.length := by
  induction ws with
  | nil => rfl
  | cons w ws ih =>
    rw [List.flatMap_cons, List.length_append, length_littleEndian, ih, List.length_cons]
    omega

theorem length_bytes (n : Nat) (rs : RandomSource) : (bytes n rs).1.length = n := by
  rw [bytes_eq, List.length_take, length_flatMap_littleEndian, RandomSource.length_words]
  omega

/-- More bytes begin with fewer. -/
theorem bytes_prefix (m n : Nat) (rs : RandomSource) :
    (bytes m rs).1 <+: (bytes (m + n) rs).1 := by
  obtain ⟨k, hk⟩ : ∃ k, (m + n + 7) / 8 = (m + 7) / 8 + k :=
    ⟨(m + n + 7) / 8 - (m + 7) / 8, by omega⟩
  have hlength : m ≤ ((rs.words ((m + 7) / 8)).flatMap littleEndian).length := by
    rw [length_flatMap_littleEndian, RandomSource.length_words]
    omega
  rw [bytes_eq m, bytes_eq (m + n), hk, words_add, List.flatMap_append,
    ← List.take_append_of_le_length hlength]
  exact List.take_prefix_take_left (Nat.le_add_right m n)

theorem bytes_eight_add (n : Nat) (rs : RandomSource) :
    bytes (8 + n) rs =
      (littleEndian rs.next.1 ++ (bytes n rs.next.2).1, (bytes n rs.next.2).2) := by
  have hwhole : (littleEndian rs.next.1).take (8 + n) = littleEndian rs.next.1 :=
    List.take_of_length_le (by rw [length_littleEndian]; omega)
  rw [bytes_of_pos (by omega), hwhole, Nat.add_sub_cancel_left]

/-- Words that are used up leave the source where the next bytes begin. -/
theorem bytes_add {m : Nat} (hm : 8 ∣ m) (n : Nat) (rs : RandomSource) :
    bytes (m + n) rs =
      ((bytes m rs).1 ++ (bytes n (bytes m rs).2).1, (bytes n (bytes m rs).2).2) := by
  obtain ⟨k, rfl⟩ := hm
  induction k generalizing rs with
  | zero => simp
  | succ k ih =>
    have hsplit : 8 * (k + 1) = 8 + 8 * k := by omega
    rw [hsplit, Nat.add_assoc, bytes_eight_add, bytes_eight_add, ih, List.append_assoc]

/-- Bytes follow the words. The bytes of a word are its eight digits, the lowest first;
to draw bytes is to draw as many words as they begin, and their bytes up to the number
that is asked for. So fewer bytes are the beginning of more, and if all words of the first
bytes are used up it is the same to draw on as to have drawn all at once. -/
theorem bytes_follow_words (rs : RandomSource) :
    (∀ w, (littleEndian w).length = 8 ∧
      Nat.ofDigits 256 ((littleEndian w).map UInt8.toNat) = w.toNat) ∧
    (∀ n, (bytes n rs).1 = ((rs.words ((n + 7) / 8)).flatMap littleEndian).take n ∧
      (bytes n rs).1.length = n ∧ (bytes n rs).2 = rs.skip ((n + 7) / 8)) ∧
    (∀ m n, (bytes m rs).1 <+: (bytes (m + n) rs).1) ∧
    ∀ m n, 8 ∣ m →
      (do let first ← bytes m; let second ← bytes n; return first ++ second : Draw (List UInt8))
        rs = bytes (m + n) rs := by
  refine ⟨fun w => ⟨length_littleEndian w, ofDigits_littleEndian w⟩,
    fun n => ⟨?_, length_bytes n rs, ?_⟩, fun m n => bytes_prefix m n rs, fun m n hm => ?_⟩
  · rw [bytes_eq]
  · rw [bytes_eq]
  · exact (bytes_add hm n rs).symm

/-- Eight bytes and then five. -/
theorem bytes_follow_words_thirteen :
    8 ∣ 8 ∧
      (do let first ← bytes 8; let second ← bytes 5; return first ++ second : Draw (List UInt8))
        (.seeded 3) = bytes 13 (.seeded 3) ∧
      (bytes 13 (.seeded 3)).2 = (RandomSource.seeded 3).skip 2 := by
  obtain ⟨-, hbytes, -, hadd⟩ := bytes_follow_words (.seeded 3)
  exact ⟨by decide, hadd 8 5 (by decide), (hbytes 13).2.2⟩

end Draw

end PropertyTesting
