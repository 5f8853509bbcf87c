import Mathlib.Logic.Relation
import Mathlib.Order.OrderIsoNat
import PropertyTesting.Proofs.Shrink.Sieve
import PropertyTesting.Proofs.Shrink.Text

/-!
Where the candidates for a text lead. A candidate has lost a stretch of characters or has
its first character that is not the letter `a` replaced by it. Whichever are taken, the
way ends, and it ends in a text of that letter alone, as short as it may be.
-/

namespace PropertyTesting.Shrink

variable {least : Nat} {s t : String} {cs ds : List Char}

/-- A text of at least so many characters that lacks a stretch of another one. -/
def Shorter (least : Nat) (s t : String) : Prop :=
  ∃ before stretch after, s.toList = before ++ stretch ++ after ∧ stretch ≠ [] ∧
    t.toList = before ++ after ∧ least ≤ t.length

/-- A text in which the first character that is not the letter `a` is replaced by it. -/
def Simpler (s t : String) : Prop :=
  ∃ before c after, s.toList = before ++ c :: after ∧ (∀ b ∈ before, b = 'a') ∧ c ≠ 'a' ∧
    t.toList = before ++ 'a' :: after

/-- One text is tried in place of another. -/
def Tried (least : Nat) (s t : String) : Prop :=
  t ∈ (string least s).toList

theorem simplifyFirst_eq_none : simplifyFirst cs = none ↔ ∀ c ∈ cs, c = 'a' := by
  induction cs with
  | nil => simp [simplifyFirst]
  | cons c cs ih =>
    by_cases hc : c = 'a'
    · simp [simplifyFirst, hc, ih]
    · simp [simplifyFirst_cons_of_ne hc, hc]

theorem length_simplifyFirst (h : simplifyFirst cs = some ds) : ds.length = cs.length := by
  obtain ⟨before, c, after, rfl, -, -, rfl⟩ := simplifyFirst_eq_some h
  simp

theorem shorter_of_cut {c : Cut} (hc : c ∈ Cut.all s.toList.length least)
    (ht : t.toList = c.apply s.toList) : Shorter least s t := by
  have hstart := (Cut.legal_of_mem_all hc).1
  have hstop := Cut.stop_le_of_mem_all hc
  have hsplit : s.toList.take c.start ++ (s.toList.take c.stop).drop c.start =
      s.toList.take c.stop := by
    have := List.take_append_drop c.start (s.toList.take c.stop)
    rwa [List.take_take, Nat.min_eq_left (Nat.le_of_lt hstart)] at this
  refine ⟨_, (s.toList.take c.stop).drop c.start, s.toList.drop c.stop, ?_, ?_, ht, ?_⟩
  · rw [hsplit, List.take_append_drop]
  · rw [← List.length_pos_iff, List.length_drop, List.length_take]
    omega
  · rw [← String.length_toList, ht]
    exact Cut.min_le_length_apply hc

theorem shorter_or_simpler (ht : t ∈ (string least s).toList) :
    Shorter least s t ∨ Simpler s t := by
  rcases mem_string.1 ht with ⟨c, hc, ht⟩ | ht
  · exact .inl (shorter_of_cut hc ht)
  · exact .inr (simplifyFirst_eq_some ht)

/-- The candidates do not become shorter: the biggest cuts come first, and the text of the
same length last. -/
theorem string_pairwise (least : Nat) (s : String) :
    (string least s).toList.Pairwise fun t u => t.length ≤ u.length := by
  refine List.Pairwise.sublist (Row.eraseReps_sublist _) ?_
  simp only [Row.toList_append, Row.toList_map, Row.toList_ofList]
  refine List.pairwise_append.2 ⟨List.pairwise_map.2 ?_, ?_, ?_⟩
  · refine (Cut.all_pairwise _ _).imp_of_mem fun hb hc hsize => ?_
    rw [String.length_ofList, String.length_ofList, Cut.length_apply hb, Cut.length_apply hc]
    omega
  · cases simplifyFirst s.toList <;> simp
  · intro t ht u hu
    obtain ⟨c, hc, rfl⟩ := List.mem_map.1 ht
    obtain ⟨cs, hcs, rfl⟩ := Option.map_eq_some_iff.1 (Option.mem_toList.1 hu)
    rw [String.length_ofList, String.length_ofList, length_simplifyFirst hcs]
    exact Nat.le_of_lt (Cut.length_apply_lt hc)

theorem not_mem_string_self (least : Nat) (s : String) : s ∉ (string least s).toList :=
  fun hs => Nat.lt_irrefl _ (textWeight_lt_of_mem_string hs)

/-- Every single character may go, if not all are needed. -/
theorem eraseIdx_mem_string (h : least < s.length) {i : Nat} (hi : i < s.length) :
    String.ofList (s.toList.eraseIdx i) ∈ (string least s).toList := by
  rw [← String.length_toList] at h hi
  exact mem_string.2 (.inl ⟨⟨i, i + 1⟩, Cut.single_mem_all h hi, by
    rw [String.toList_ofList, Cut.apply_single]⟩)

theorem string_eq_nil :
    (string least s).toList = [] ↔ s.length ≤ least ∧ ∀ c ∈ s.toList, c = 'a' := by
  rw [List.eq_nil_iff_forall_not_mem, ← simplifyFirst_eq_none]
  constructor
  · intro hnone
    constructor
    · by_contra h
      exact hnone _ (eraseIdx_mem_string (i := 0) (by omega) (by omega))
    · by_contra h
      obtain ⟨cs, hcs⟩ := Option.ne_none_iff_exists'.1 h
      exact hnone (.ofList cs) (mem_string.2 (.inr (by rw [hcs, String.toList_ofList])))
  · rintro ⟨hlength, hnone⟩ t ht
    rcases mem_string.1 ht with ⟨c, hc, -⟩ | ht
    · rw [String.length_toList, Cut.all_of_le hlength] at hc
      cases hc
    · rw [hnone] at ht
      cases ht

/-- No candidate is shorter than it may be, and a text that may not lose anything keeps
its length. -/
theorem min_length_of_mem_string (ht : t ∈ (string least s).toList) :
    min t.length least = min s.length least := by
  simp only [← String.length_toList]
  rcases mem_string.1 ht with ⟨c, hc, ht⟩ | ht
  · have hleast := Cut.min_le_length_apply hc
    have hlt := Cut.length_apply_lt hc
    rw [ht]
    omega
  · rw [length_simplifyFirst ht]

theorem no_endless_run {run : Nat → String}
    (hrun : ∀ n, Tried least (run n) (run (n + 1))) : False := by
  have hanti : StrictAnti fun n => textWeight (run n) :=
    strictAnti_nat_of_succ_lt fun n => textWeight_lt_of_mem_string (hrun n)
  exact not_strictAnti_of_wellFoundedLT _ hanti

/-- Where nothing is left to try, all characters are the letter `a`, and as many are left
as must be. -/
theorem eq_of_run_end (h : Relation.ReflTransGen (Tried least) s t)
    (hend : (string least t).toList = []) :
    t = String.ofList (List.replicate (min s.length least) 'a') := by
  have hmin : min t.length least = min s.length least := by
    clear hend
    induction h with
    | refl => rfl
    | tail _ hstep ih => exact (min_length_of_mem_string hstep).trans ih
  obtain ⟨hlength, hall⟩ := string_eq_nil.1 hend
  rw [← hmin, Nat.min_eq_left hlength, ← String.length_toList, ← List.eq_replicate_of_mem hall,
    String.ofList_toList]

/-- The candidates for a text are sound, and they converge. Each is a shorter text or the
simpler one, for which the first candidate of a character is taken; they are sorted by
length, and the text itself is not among them. There are none just when the text is as
short as it must be and all of its characters are the letter `a`. While it is longer any
single character may go. To take one candidate after the other comes to an end, and
whichever are taken it ends in the same text. -/
theorem string_converges (least : Nat) (s : String) :
    (∀ t ∈ (string least s).toList, Shorter least s t ∨ Simpler s t) ∧
    (∀ c, c ≠ 'a' → (char c).head? = some 'a') ∧
    ((string least s).toList.Pairwise fun t u => t.length ≤ u.length) ∧
    s ∉ (string least s).toList ∧
    ((string least s).toList = [] ↔ s.length ≤ least ∧ ∀ c ∈ s.toList, c = 'a') ∧
    (least < s.length →
      ∀ i < s.length, String.ofList (s.toList.eraseIdx i) ∈ (string least s).toList) ∧
    (¬∃ run : Nat → String, run 0 = s ∧ ∀ n, Tried least (run n) (run (n + 1))) ∧
    ∀ t, Relation.ReflTransGen (Tried least) s t →
      (string least t).toList = [] →
      t = String.ofList (List.replicate (min s.length least) 'a') := by
  refine ⟨fun t ht => shorter_or_simpler ht, fun c hc => char_head? hc, string_pairwise least s,
    not_mem_string_self least s, string_eq_nil, fun h i hi => eraseIdx_mem_string h hi, ?_,
    fun t h hend => eq_of_run_end h hend⟩
  rintro ⟨run, -, hrun⟩
  exact no_endless_run hrun

/-- Halfway from this character to the letter `a` there is no character. It loses its
neighbour and gives way to that letter, and then one character is left, as it must be. -/
theorem string_converges_surrogate :
    let s := String.ofList ['é', '𛀀']
    let t := String.ofList ['𛀀']
    let u := String.ofList ['a']
    charAt? ('𛀀'.toNat - half 'a'.toNat '𛀀'.toNat) = none ∧
      '𛀀' ≠ 'a' ∧ (char '𛀀').head? = some 'a' ∧
      1 < s.length ∧ 0 < s.length ∧ t ∈ (string 1 s).toList ∧ (Shorter 1 s t ∨ Simpler s t) ∧
      Relation.ReflTransGen (Tried 1) s u ∧
      (string 1 u).toList = [] ∧ u = String.ofList (List.replicate (min s.length 1) 'a') := by
  intro s t u
  obtain ⟨hsound, hchar, -, -, -, hsingle, -, hlast⟩ := string_converges 1 s
  have hlong : 1 < s.length := by
    rw [String.length_ofList]
    exact Nat.lt_succ_self 1
  have ht : t ∈ (string 1 s).toList := by
    simpa [s, t] using hsingle hlong 0 (by omega)
  have hu : u ∈ (string 1 t).toList :=
    mem_string.2 (.inr (by simp [t, u, simplifyFirst_cons_of_ne]))
  have hend : (string 1 u).toList = [] := by
    rw [string_eq_nil, String.length_ofList]
    exact ⟨Nat.le_refl 1, by simp [u]⟩
  have hrun : Relation.ReflTransGen (Tried 1) s u := .tail (.single ht) hu
  exact ⟨by decide, by decide, hchar _ (by decide), hlong, by omega, ht, hsound t ht, hrun, hend,
    hlast u hrun hend⟩

end PropertyTesting.Shrink
