import Mathlib.Logic.Function.Basic
import Std.Data.String.ToInt
import PropertyTesting.Text.Written

/-!
Values that are told apart by their written form. The parts of a written list
can be read back from it as long as none of them is empty or has a comma, and
so lists of integers differ wherever their written forms do.
-/

namespace PropertyTesting

open Inspect

namespace Written

theorem integer_injective : Function.Injective integer :=
  fun _ _ h => Int.repr_injective h

theorem integer_ne_empty (n : Int) : integer n ≠ "" := by
  rw [integer, Int.toString_eq_repr, Int.repr_eq_if]
  split <;> simp

theorem comma_not_mem_repr (n : Nat) : ',' ∉ n.repr.toList := by
  intro h
  rw [Nat.toList_repr] at h
  simpa using Nat.isDigit_of_mem_toDigits (by decide) (by decide) h

theorem comma_not_mem_integer (n : Int) : ',' ∉ (integer n).toList := by
  rw [integer, Int.toString_eq_repr, Int.repr_eq_if]
  split
  · exact comma_not_mem_repr _
  · simpa using comma_not_mem_repr _

/-- To put a comma and a blank between parts is to put a comma between parts
that, but for the first, begin with a blank. -/
theorem intercalate_comma_blank (p : List Char) (ps : List (List Char)) :
    [',', ' '].intercalate (p :: ps) = [','].intercalate (p :: ps.map (' ' :: ·)) := by
  induction ps generalizing p with
  | nil => simp
  | cons q ps ih => simp [ih]

/-- Parts without commas are read back from between the commas. -/
theorem splitOn_intercalate (p : String) (ps : List String) (h : ∀ q ∈ p :: ps, ',' ∉ q.toList) :
    (", ".intercalate (p :: ps)).toList.splitOn ',' =
      p.toList :: ps.map (' ' :: ·.toList) := by
  have hcomma : ", ".toList = [',', ' '] := rfl
  rw [String.toList_intercalate, hcomma, List.map_cons, intercalate_comma_blank,
    List.splitOn_intercalate _ _ (List.cons_ne_nil _ _), List.map_map]
  · rfl
  · intro l hl
    rcases List.mem_cons.1 hl with rfl | hl
    · exact h p (.head _)
    · obtain ⟨m, hm, rfl⟩ := List.mem_map.1 hl
      obtain ⟨q, hq, rfl⟩ := List.mem_map.1 hm
      simpa using h q (.tail _ hq)

/-- A list of parts is read back from its written form if no part is empty or
has a comma. -/
theorem list_injective {ps qs : List String} (hps : ∀ p ∈ ps, p ≠ "" ∧ ',' ∉ p.toList)
    (hqs : ∀ q ∈ qs, q ≠ "" ∧ ',' ∉ q.toList) (h : list ps = list qs) : ps = qs := by
  have hcut : ", ".intercalate ps = ", ".intercalate qs := by
    simpa [list, bracketed] using h
  cases ps with
  | nil =>
    cases qs with
    | nil => rfl
    | cons q qs =>
      have hsplit := splitOn_intercalate q qs fun r hr => (hqs r hr).2
      rw [← hcut] at hsplit
      have hq : q = "" ∧ qs = [] := by simpa using hsplit
      exact absurd hq.1 (hqs q (.head _)).1
  | cons p ps =>
    have hp := splitOn_intercalate p ps fun r hr => (hps r hr).2
    cases qs with
    | nil =>
      rw [hcut] at hp
      have hp : p = "" ∧ ps = [] := by simpa using hp
      exact absurd hp.1 (hps p (.head _)).1
    | cons q qs =>
      rw [hcut, splitOn_intercalate q qs fun r hr => (hqs r hr).2] at hp
      obtain ⟨hhead, htail⟩ := List.cons.inj hp
      rw [String.ext hhead, (List.map_inj_right fun _ _ hst => String.ext (List.cons.inj hst).2).1
        htail]

end Written

theorem inspect_int64_injective : Function.Injective (inspect : Int64 → String) :=
  fun _ _ h => Int64.toInt_inj.1 (Written.integer_injective h)

/-- Lists of integers are told apart by their written forms. -/
theorem inspect_list_int64_injective : Function.Injective (inspect : List Int64 → String) := by
  intro xs ys h
  have hparts (zs : List Int64) : ∀ p ∈ zs.map inspect, p ≠ "" ∧ ',' ∉ p.toList := by
    intro p hp
    obtain ⟨z, -, rfl⟩ := List.mem_map.1 hp
    exact ⟨Written.integer_ne_empty _, Written.comma_not_mem_integer _⟩
  exact (List.map_inj_right fun _ _ hz => inspect_int64_injective hz).1
    (Written.list_injective (hparts xs) (hparts ys) h)

end PropertyTesting
