import Mathlib.Data.List.Perm.Subperm
import PropertyTesting.Row

/-!
Lists and rows without their repeated elements. Nothing that occurs is lost, and
what is left stands in the order in which it stood before.
-/

namespace PropertyTesting

variable {α : Type} [BEq α]

section List

variable {l : List α}

theorem eraseDups_sublist (l : List α) : l.eraseDups.Sublist l := by
  match l with
  | [] => exact .slnil
  | a :: l =>
    rw [List.eraseDups_cons]
    exact ((eraseDups_sublist _).trans List.filter_sublist).cons_cons a
termination_by l.length
decreasing_by exact Nat.lt_succ_of_le (List.length_filter_le _ _)

theorem nodup_eraseDups [LawfulBEq α] (l : List α) : l.eraseDups.Nodup := by
  match l with
  | [] => exact .nil
  | a :: l =>
    rw [List.eraseDups_cons, List.nodup_cons]
    refine ⟨fun ha => ?_, nodup_eraseDups _⟩
    simpa using (List.mem_filter.1 (List.mem_eraseDups.1 ha)).2
termination_by l.length
decreasing_by exact Nat.lt_succ_of_le (List.length_filter_le _ _)

theorem eraseDups_of_nodup [LawfulBEq α] (h : l.Nodup) : l.eraseDups = l :=
  (eraseDups_sublist l).eq_of_length_le
    (List.subperm_of_subset h fun _ ha => List.mem_eraseDups.2 ha).length_le

end List

namespace Row

variable {a b : α} {r : Row α}

theorem eraseRepsAfter_sublist (a : α) (r : Row α) :
    (eraseRepsAfter a r).toList.Sublist r.toList := by
  induction r generalizing a with
  | nil => exact .slnil
  | cons b rest ih =>
    rw [eraseRepsAfter, toList_cons]
    split
    · exact (ih () a).cons b
    · rw [toList_cons]
      exact (ih () b).cons_cons b

theorem eraseReps_sublist (r : Row α) : r.eraseReps.toList.Sublist r.toList := by
  cases r with
  | nil => exact .slnil
  | cons a rest =>
    rw [eraseReps, toList_cons, toList_cons]
    exact (eraseRepsAfter_sublist a _).cons_cons a

/-- What is left out after an element is that element. -/
theorem mem_cons_eraseRepsAfter [LawfulBEq α] :
    b ∈ a :: (eraseRepsAfter a r).toList ↔ b ∈ a :: r.toList := by
  induction r generalizing a with
  | nil => rfl
  | cons c rest ih =>
    rw [eraseRepsAfter, toList_cons]
    split
    · rename_i heq
      obtain rfl : a = c := eq_of_beq heq
      rw [ih]
      simp
    · rw [toList_cons, List.mem_cons, ih, ← List.mem_cons]

theorem mem_eraseReps [LawfulBEq α] : b ∈ r.eraseReps.toList ↔ b ∈ r.toList := by
  cases r with
  | nil => rfl
  | cons a rest =>
    rw [eraseReps, toList_cons, toList_cons]
    exact mem_cons_eraseRepsAfter

end Row

end PropertyTesting
