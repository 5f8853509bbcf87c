import PropertyTesting.Shrink.Cut

/-!
What the cuts of a list do. Each takes away a stretch of it and leaves as many
elements as must be left; and as long as one more may go, any single element
can.
-/

namespace PropertyTesting.Cut

variable {α : Type} {len min : Nat} {c : Cut}

theorem legal_of_mem_all (hc : c ∈ all len min) : c.Legal len min := by
  unfold all at hc
  split at hc
  · simp at hc
  · simpa using (List.mem_filter.1 hc).2

theorem stretches_sublist (len min : Nat) :
    (stretches len min).Sublist [⟨min, len⟩, ⟨len / 2, len⟩, ⟨0, len / 2⟩] := by
  have hite (p : Prop) [Decidable p] (c : Cut) : (if p then [c] else []).Sublist [c] := by
    split
    · exact .refl _
    · exact List.nil_sublist _
  exact ((List.Sublist.refl _).append (hite _ _)).append (hite _ _)

theorem mem_stretches (hc : c ∈ stretches len min) :
    c = ⟨min, len⟩ ∨ c = ⟨len / 2, len⟩ ∨ c = ⟨0, len / 2⟩ := by
  simpa using (stretches_sublist len min).mem hc

theorem mem_stretches_stop_le (hc : c ∈ stretches len min) : c.stop ≤ len := by
  rcases mem_stretches hc with rfl | rfl | rfl
  · exact Nat.le_refl len
  · exact Nat.le_refl len
  · exact Nat.div_le_self len 2

theorem mem_singles : c ∈ singles len min ↔
    (min ≤ len - 1 ∧ 1 < len) ∧ ∃ i < len, c = ⟨i, i + 1⟩ := by
  unfold singles
  split
  · rename_i h
    simp [h, eq_comm]
  · rename_i h
    simp [h]

theorem stop_le_of_mem_all (hc : c ∈ all len min) : c.stop ≤ len := by
  unfold all at hc
  split at hc
  · simp at hc
  · rcases List.mem_append.1 (List.mem_filter.1 hc).1 with hc | hc
    · exact mem_stretches_stop_le (List.mem_eraseDups.1 hc)
    · obtain ⟨-, i, hi, rfl⟩ := mem_singles.1 (List.mem_filter.1 hc).1
      exact hi

/-- If one more element may go, any one can. -/
theorem single_mem_all (hmin : min < len) {i : Nat} (hi : i < len) :
    ⟨i, i + 1⟩ ∈ all len min := by
  rw [all, if_neg (by omega)]
  refine List.mem_filter.2 ⟨?_, decide_eq_true ⟨Nat.lt_succ_self i, by simp [size]; omega⟩⟩
  by_cases hone : len = 1
  · -- Of a single element, all that can go is the element.
    obtain rfl : i = 0 := by omega
    obtain rfl : min = 0 := by omega
    simp [hone, stretches]
  · by_cases hlong : ⟨i, i + 1⟩ ∈ (stretches len min).eraseDups
    · exact List.mem_append_left _ hlong
    · refine List.mem_append_right _ (List.mem_filter.2 ⟨?_, by simpa using hlong⟩)
      exact mem_singles.2 ⟨⟨by omega, by omega⟩, i, hi, rfl⟩

theorem apply_single (i : Nat) (xs : List α) :
    (⟨i, i + 1⟩ : Cut).apply xs = xs.eraseIdx i := by
  rw [apply, List.eraseIdx_eq_take_drop_succ]

theorem length_apply {xs : List α} (hc : c ∈ all xs.length min) :
    (c.apply xs).length = xs.length - c.size := by
  have hlegal := (legal_of_mem_all hc).1
  have hstop := stop_le_of_mem_all hc
  rw [apply, List.length_append, List.length_take, List.length_drop, size]
  omega

theorem apply_sublist {xs : List α} (hc : c ∈ all xs.length min) : (c.apply xs).Sublist xs := by
  have hle : c.start ≤ c.stop := Nat.le_of_lt (legal_of_mem_all hc).1
  have := (List.Sublist.refl (xs.take c.start)).append (List.drop_sublist_drop_left xs hle)
  rwa [List.take_append_drop] at this

theorem min_le_length_apply {xs : List α} (hc : c ∈ all xs.length min) :
    min ≤ (c.apply xs).length :=
  length_apply hc ▸ (legal_of_mem_all hc).2

theorem length_apply_lt {xs : List α} (hc : c ∈ all xs.length min) :
    (c.apply xs).length < xs.length := by
  have hlegal := (legal_of_mem_all hc).1
  have hstop := stop_le_of_mem_all hc
  rw [length_apply hc, size]
  omega

end PropertyTesting.Cut
