import Mathlib.Algebra.Group.Nat.Defs
import Mathlib.Algebra.Ring.Int.Defs
import PropertyTesting.Proofs.Shrink.Integer

/-!
How the candidates for an integer are collected. The step away from the value begins with
half of the distance and is halved in every round, until nothing is left of it. There are
fewer rounds than a word has bits, and no candidate is cut short on the way.
-/

namespace PropertyTesting.Shrink

/-- The word that lies a step away from a value. -/
def stepBack (value : Int64) (step : Int) : Int64 :=
  Int64.ofInt (value.toInt - step)

/-- Note the candidate at a step, unless it is the value itself or was noted before. -/
def collect (value : Int64) (found : List Int64) (step : Int) : List Int64 :=
  if stepBack value step ≠ value ∧ stepBack value step ∉ found then
    found ++ [stepBack value step]
  else
    found

/-- A number of rounds from a step on, with what was found before and afterwards. -/
inductive Collects (value : Int64) : Int → List Int64 → Nat → List Int64 → Prop where
  | done {found : List Int64} : Collects value 0 found 0 found
  | round {step : Int} {found all : List Int64} {rounds : Nat} (hstep : step ≠ 0)
      (rest : Collects value (step.tdiv 2) (collect value found step) rounds all) :
      Collects value step found (rounds + 1) all

/-- Whatever the first step is, the rounds come to an end. -/
theorem collects (value : Int64) (step : Int) (found : List Int64) :
    Collects value step found (halvings step).length
      ((halvings step).foldl (collect value) found) := by
  fun_induction halvings step generalizing found with
  | case1 => exact .done
  | case2 step hstep ih => exact .round hstep (ih _)

theorem length_halvings_le {n : Int} {k : Nat} (h : n.natAbs < 2 ^ k) :
    (halvings n).length ≤ k := by
  induction k generalizing n with
  | zero =>
    obtain rfl : n = 0 := by omega
    simp
  | succ k ih =>
    by_cases hn : n = 0
    · simp [hn]
    · rw [halvings_of_ne hn, List.length_cons]
      apply Nat.succ_le_succ
      apply ih
      have := tdiv_two_spec n
      rw [Nat.pow_succ] at h
      omega

/-- Candidates that were noted before are not noted again. -/
theorem foldl_collect_of_known {value : Int64} {found : List Int64} {steps : List Int}
    (h : ∀ s ∈ steps, stepBack value s ∈ found) :
    steps.foldl (collect value) found = found := by
  induction steps with
  | nil => rfl
  | cons s steps ih =>
    obtain ⟨hs, hsteps⟩ := List.forall_mem_cons.1 h
    rw [List.foldl_cons, collect, if_neg fun hnew => hnew.2 hs, ih hsteps]

/-- New candidates are all noted. -/
theorem foldl_collect_of_new {value : Int64} {found : List Int64} {steps : List Int}
    (hvalue : ∀ s ∈ steps, stepBack value s ≠ value)
    (hnew : (found ++ steps.map (stepBack value)).Nodup) :
    steps.foldl (collect value) found = found ++ steps.map (stepBack value) := by
  induction steps generalizing found with
  | nil => exact (List.append_nil found).symm
  | cons s steps ih =>
    obtain ⟨hs, hsteps⟩ := List.forall_mem_cons.1 hvalue
    rw [List.map_cons, List.append_cons] at hnew
    have hfresh : stepBack value s ∉ found := by
      have := (List.nodup_append.1 (List.nodup_append.1 hnew).1).2.2
      exact fun hmem => this _ hmem _ (List.mem_singleton_self _) rfl
    rw [List.foldl_cons, collect, if_pos ⟨hs, hfresh⟩, ih hsteps hnew, List.map_cons,
      List.append_assoc]
    rfl

section Half

variable {d v : Int64}

theorem between_of_mem_halvings {d v s : Int} (hs : s ∈ halvings (half d v)) :
    d ≤ v - s ∧ v - s < v ∨ v < v - s ∧ v - s ≤ d := by
  have hhalf := half_bounds (d := d) (v := v)
  have := mem_halvings hs
  omega

theorem natAbs_half_lt (d v : Int64) : (half d.toInt v.toInt).natAbs < 2 ^ 63 := by
  have hd := d.le_toInt
  have hd' := d.toInt_lt
  have hv := v.le_toInt
  have hv' := v.toInt_lt
  have := tdiv_two_spec d.toInt
  have := tdiv_two_spec v.toInt
  unfold half
  omega

/-- No step leads out of the words. -/
theorem toInt_stepBack {s : Int} (hs : s ∈ halvings (half d.toInt v.toInt)) :
    (stepBack v s).toInt = v.toInt - s := by
  have := between_of_mem_halvings hs
  exact toInt_ofInt_of_between (d := d) (v := v) (by omega)

theorem stepBack_ne {s : Int} (hs : s ∈ halvings (half d.toInt v.toInt)) : stepBack v s ≠ v := by
  intro heq
  have hback := toInt_stepBack hs
  have := between_of_mem_halvings hs
  rw [heq] at hback
  omega

end Half

section Long

variable {d v c : Int64}

/-- The candidates move away from the destination. -/
theorem long_pairwise (d v : Int64) : (long d v).Pairwise fun b c => gap d b < gap d c := by
  have h := towards_pairwise d.toInt v.toInt
  rw [← long_toInt, List.pairwise_map] at h
  exact h

theorem nodup_long (d v : Int64) : (long d v).Nodup :=
  (long_pairwise d v).imp fun hlt heq => by simp [heq] at hlt

theorem long_head? (h : d ≠ v) : (long d v).head? = some d := by
  rw [long, List.head?_map, towards_head? (mt Int64.toInt_inj.1 h), Option.map_some,
    Int64.ofInt_toInt]

theorem long_eq_nil : long d v = [] ↔ d = v := by
  constructor
  · intro hnil
    by_contra h
    have hhead := long_head? h
    rw [hnil] at hhead
    cases hhead
  · rintro rfl
    rw [long, towards_self]
    rfl

/-- The rounds find the candidates. -/
theorem collected (h : d ≠ v) :
    (halvings (half d.toInt v.toInt)).foldl (collect v) [d] = long d v := by
  rcases towards_cases (mt Int64.toInt_inj.1 h) with ⟨hone, ht⟩ | ⟨-, ht⟩
  · -- One unit away there is no candidate but the destination.
    have hlong : long d v = [d] := by rw [long, ht, List.map_singleton, Int64.ofInt_toInt]
    rw [hlong]
    apply foldl_collect_of_known
    intro s hs
    have hback := toInt_stepBack hs
    have := between_of_mem_halvings hs
    exact List.mem_singleton.2 (Int64.toInt_inj.1 (by omega))
  · have hlong : long d v = [d] ++ (halvings (half d.toInt v.toInt)).map (stepBack v) := by
      rw [long, ht, List.map_cons, Int64.ofInt_toInt, List.map_map]
      rfl
    rw [hlong]
    apply foldl_collect_of_new (fun s hs => stepBack_ne hs)
    rw [← hlong]
    exact nodup_long d v

theorem long_between (hc : c ∈ long d v) : d ≤ c ∧ c < v ∨ v < c ∧ c ≤ d := by
  simp only [Int64.le_iff_toInt_le, Int64.lt_iff_toInt_lt]
  exact mem_towards (mem_long.1 hc)

/-- The candidates for an integer are sound and ordered, and nothing overflows. They are
collected in at most 63 rounds, in which the step is never too great for a word and no
candidate is cut short. There are none just when the value is the destination; else the
destination comes first and the others follow in the order of their distance from it, all
of them nearer to it than the value and on the same side. If the destination is the
origin of a range that the value lies in, the integer next to the value is one of them. -/
theorem long_candidates (d v : Int64) :
    (d ≠ v → ∃ rounds ≤ 63, Collects v (half d.toInt v.toInt) [d] rounds (long d v)) ∧
    (half d.toInt v.toInt).natAbs < 2 ^ 63 ∧
    (∀ s ∈ halvings (half d.toInt v.toInt), (stepBack v s).toInt = v.toInt - s) ∧
    (long d v = [] ↔ d = v) ∧
    (d ≠ v → (long d v).head? = some d) ∧
    (long d v).Nodup ∧
    ((long d v).Pairwise fun b c => gap d b < gap d c) ∧
    (∀ c ∈ long d v, gap d c < gap d v ∧ (d ≤ c ∧ c < v ∨ v < c ∧ c ≤ d)) ∧
    ∀ lo hi, lo ≤ v → v ≤ hi → d = destination lo hi → d ≠ v → nearer d v ∈ long d v := by
  refine ⟨fun h => ⟨_, length_halvings_le (natAbs_half_lt d v), ?_⟩, natAbs_half_lt d v,
    fun s hs => toInt_stepBack hs, long_eq_nil, long_head?, nodup_long d v, long_pairwise d v,
    fun c hc => ⟨gap_lt_of_mem_long hc, long_between hc⟩, ?_⟩
  · rw [← collected h]
    exact collects v (half d.toInt v.toInt) [d]
  · rintro lo hi hlo hhi rfl hne
    exact nearer_mem_long (destination_sameSide hlo hhi) hne

/-- The least word, in the range of all words. -/
theorem long_candidates_least :
    let v := Int64.minValue
    let d := destination Int64.minValue Int64.maxValue
    d ≠ v ∧ (∃ rounds ≤ 63, Collects v (half d.toInt v.toInt) [d] rounds (long d v)) ∧
      -2 ^ 62 ∈ halvings (half d.toInt v.toInt) ∧
      (stepBack v (-2 ^ 62)).toInt = v.toInt - -2 ^ 62 ∧
      d ∈ long d v ∧ gap d d < gap d v ∧
      Int64.minValue ≤ v ∧ v ≤ Int64.maxValue ∧ nearer d v = -9223372036854775807 ∧
      nearer d v ∈ long d v := by
  intro v d
  have hne : d ≠ v := by decide
  have hstep : -2 ^ 62 ∈ halvings (half d.toInt v.toInt) := by
    rw [show half d.toInt v.toInt = -2 ^ 62 by decide, halvings_of_ne (by decide)]
    exact List.mem_cons_self
  obtain ⟨hrounds, -, hexact, -, hhead, -, -, hcloser, hunit⟩ := long_candidates d v
  have hmem : d ∈ long d v := List.mem_of_mem_head? (hhead hne)
  exact ⟨hne, hrounds hne, hstep, hexact _ hstep, hmem, (hcloser d hmem).1, by decide, by decide,
    by decide, hunit _ _ (by decide) (by decide) rfl hne⟩

/-- From one side of zero to the other the integer next to the value may be missing. -/
example : towards (-1) 1 = [-1] := by
  cbv

end Long

end PropertyTesting.Shrink
