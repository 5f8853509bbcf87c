import Mathlib.Algebra.Order.Floor.Div
import Mathlib.Data.Int.CardIntervalMod
import PropertyTesting.Proofs.Generate.Enumeration
import PropertyTesting.Proofs.Run.FirstFailure

/-!
Runs on enumerations. No element of such a stream is a fault, so a run that is
not refused either passes on all its samples or fails on the first one that it
should. As it makes at least as many tests as there are values, a run that
passes has tested every value; and since the values come round and round, it has
tested each of them as often as any other, give or take one test.
-/

namespace PropertyTesting

/-- A value that does not shrink is its own minimum. -/
theorem Tree.steps_minimize_leaf {α : Type} [Inspect α] (limit : Nat) (check : α → Verdict)
    (v : α) : ((leaf v).minimize limit check).steps = 0 := by
  have hrow : Branching.row (leaf v) = .nil := Row.ext (children_leaf v)
  rw [minimize_eq, Minimize.minimize]
  cases limit with
  | zero => rw [Minimize.search]; rfl
  | succ limit =>
    rw [Minimize.search]
    simp only [hrow, Minimize.look]
    rfl

/-- Round and round through `k` places, some `n` times: no place is met more often
than another, but for those that the last round still reaches. -/
theorem count_rounds {k : Nat} (hk : 0 < k) (n : Nat) (j : Fin k) :
    ((List.range n).map fun i => (⟨i % k, Nat.mod_lt i hk⟩ : Fin k)).count j =
      n / k + if (j : Nat) < n % k then 1 else 0 := by
  have hcount : ((List.range n).map fun i => (⟨i % k, Nat.mod_lt i hk⟩ : Fin k)).count j =
      Nat.count (· ≡ j [MOD k]) n := by
    rw [List.count, List.countP_map]
    refine List.countP_congr fun i _ => ?_
    simp [Nat.ModEq, Fin.ext_iff, Nat.mod_eq_of_lt j.isLt]
  rw [hcount, Nat.count_modEq_card n hk, Nat.mod_eq_of_lt j.isLt]

theorem count_rounds_floor_or_ceil {k : Nat} (hk : 0 < k) (n : Nat) (j : Fin k) :
    ((List.range n).map fun i => (⟨i % k, Nat.mod_lt i hk⟩ : Fin k)).count j = n / k ∨
      ((List.range n).map fun i => (⟨i % k, Nat.mod_lt i hk⟩ : Fin k)).count j = n ⌈/⌉ k := by
  rw [count_rounds hk]
  split
  · rename_i hj
    -- A remainder is left, so that the last round is begun.
    refine .inr ?_
    have hdiv := Nat.div_add_mod n k
    have hmod := Nat.mod_lt n hk
    rw [Nat.ceilDiv_eq_add_pred_div]
    have hnext : (n / k + 1) * k = k * (n / k) + k := by ring
    have hafter : (n / k + 1 + 1) * k = k * (n / k) + k + k := by ring
    exact (Nat.div_eq_of_lt_le (by omega) (by omega)).symm
  · exact .inl rfl

namespace Property

variable {α : Type}

/-- How the tests of samples end if there is no fault among them. -/
theorem Tests.of_samples {predicate : α → Trial} {place n : Nat} {s : Nat → Sample α}
    {result : Except Fault (Tested α)} {calls : List α}
    (h : Tests predicate place ((List.range n).map fun i => .ok (s i)) result calls) :
    (∃ tally, result = .ok (.passed tally) ∧ (calls = (List.range n).map fun i => (s i).value) ∧
      ∀ i < n, (predicate (s i).value).verdict = .pass) ∨
    ∃ k < n, ∃ panic, result = .ok (.failed (place + k) (s k) panic) ∧
      (predicate (s k).value).verdict = .fail panic ∧
      ∀ i < k, (predicate (s i).value).verdict = .pass := by
  generalize helements : ((List.range n).map fun i => (.ok (s i) : Except Fault (Sample α))) =
    elements at h
  -- What stands at a place in the elements is the sample that belongs there.
  have hget : ∀ {i e}, elements[i]? = some e → i < n ∧ e = .ok (s i) := by
    intro i e he
    rw [← helements, List.getElem?_map, Option.map_eq_some_iff] at he
    obtain ⟨j, hj, rfl⟩ := he
    obtain ⟨hlt, rfl⟩ := List.getElem?_eq_some_iff.1 hj
    rw [List.length_range] at hlt
    exact ⟨hlt, by rw [List.getElem_range]⟩
  cases h with
  | @passed good tally hgood =>
    obtain rfl : (List.range n).map s = good :=
      List.map_injective_iff.2 (fun _ _ => Except.ok.inj) (by rw [List.map_map, ← helements]; rfl)
    refine .inl ⟨tally, rfl, List.map_map, fun i hi => ?_⟩
    exact hgood (s i) (List.mem_map_of_mem (List.mem_range.2 hi))
  | @fault good fault rest hgood =>
    obtain ⟨-, hfault⟩ := hget (i := good.length) (e := .error fault) (by simp)
    cases hfault
  | @failed good sample panic rest hgood hbad =>
    obtain ⟨hlt, hsample⟩ := hget (i := good.length) (e := .ok sample) (by simp)
    obtain rfl := Except.ok.inj hsample
    refine .inr ⟨good.length, hlt, panic, rfl, hbad, fun i hi => ?_⟩
    obtain ⟨-, hi'⟩ := hget (i := i) (e := .ok good[i]) (by simp [List.getElem?_append, hi])
    rw [← Except.ok.inj hi']
    exact hgood good[i] (List.getElem_mem hi)

section Run

variable [Inspect α] {p : Property α} {config : Config} {source : RandomSource}

/-- A run that is not refused, on a stream of samples without a fault. It passes
on all of them or fails on the first that it should. -/
theorem run_of_samples {s : Nat → Sample α} (h : p.validate config = .ok ())
    (hs : ∀ i, (p.gen.generate source config.edge).nth i = .ok (s i)) :
    ∃ calls, p.runWith (noting p.predicate) config source [] = (p.runFrom config source, calls) ∧
      ((∃ r, p.runFrom config source = .ok (.pass r) ∧
          (calls = (List.range config.testLimit).map fun i => (s i).value) ∧
          ∀ i < config.testLimit, (p.predicate (s i).value).verdict = .pass) ∨
        ∃ k < config.testLimit, ∃ panic,
          p.runFrom config source = .ok (.fail (p.failed source.seed (k + 1) (s k) panic
            (p.shrunk config (s k)))) ∧
          (p.predicate (s k).value).verdict ≠ .pass ∧
          ∀ i < k, (p.predicate (s i).value).verdict = .pass) := by
  obtain ⟨calls, htests, hnoted⟩ :=
    test_spec p.predicate config.testLimit 0 .empty (p.gen.generate source config.edge)
  have hwith := runWith_noting source h (hnoted [])
  rw [← runFrom_eq source h] at hwith
  refine ⟨_, hwith, ?_⟩
  rw [runFrom_eq source h]
  generalize test p.predicate config.testLimit 0 .empty (p.gen.generate source config.edge) =
    result at htests ⊢
  rw [Samples.take_eq_map_nth, funext hs] at htests
  rcases htests.of_samples with ⟨tally, rfl, rfl, hpass⟩ | ⟨k, hk, panic, rfl, hbad, hpass⟩
  · exact .inl ⟨_, rfl, by rw [triedAfter, List.append_nil, List.nil_append], hpass⟩
  · refine .inr ⟨k, hk, panic, ?_, ?_, hpass⟩
    · rw [Nat.zero_add]
      rfl
    · rw [hbad]
      exact Verdict.noConfusion

end Run

/-- What a run says of all values of a list, of which it tests the images under
a function. -/
structure Covers {α γ : Type} (values : List α) (image : α → γ) (predicate : γ → Trial)
    (config : Config) (outcome : Except Fault Outcome) (calls : List γ) : Prop where
  /-- A run passes only if the predicate passes on every value. -/
  proves : ∀ r, outcome = .ok (.pass r) → ∀ v ∈ values, (predicate (image v)).verdict = .pass
  /-- A run that passes asks about each value as often as about any other, give or
  take one. -/
  evenly : ∀ r, outcome = .ok (.pass r) → ∃ places : List (Fin values.length),
    (calls = places.map fun k => image (values.get k)) ∧
      ∀ k, places.count k = config.testLimit / values.length ∨
        places.count k = config.testLimit ⌈/⌉ values.length
  /-- It does pass then, if there are tests enough for all values. -/
  passes : (∀ v ∈ values, (predicate (image v)).verdict = .pass) →
    values.length ≤ config.testLimit → ∃ r, outcome = .ok (.pass r)
  /-- If there are tests enough for all values, the first on which the predicate
  fails is reported as it is. -/
  refutes : (∃ v ∈ values, (predicate (image v)).verdict ≠ .pass) →
    values.length ≤ config.testLimit → ∃ r, outcome = .ok (.fail r) ∧
      r.testsRun = 1 + values.findIdx (fun v => (predicate (image v)).verdict ≠ .pass) ∧
      r.shrinks = 0

section Covers

variable {α γ : Type} [Inspect γ] {values : List α} {image : α → γ} {p : Property γ}
  {config : Config} {source : RandomSource}

/-- The run on a stream that goes round and round through the images of a list, if
it is not refused. -/
theorem covers_of_rounds (hvalues : 0 < values.length) (hlimit : values.length ≤ config.testLimit)
    (h : p.validate config = .ok ())
    (hs : ∀ i, (p.gen.generate source config.edge).nth i =
      .ok (.plain (image (values.get ⟨i % values.length, Nat.mod_lt i hvalues⟩)))) :
    ∃ calls, p.runWith (noting p.predicate) config source [] = (p.runFrom config source, calls) ∧
      Covers values image p.predicate config (p.runFrom config source) calls := by
  -- Before the first round is over, what is tested is the list itself.
  have hround : ∀ {i} (hi : i < values.length),
      image (values.get ⟨i % values.length, Nat.mod_lt i hvalues⟩) = image values[i] := by
    intro i hi
    simp only [Nat.mod_eq_of_lt hi, List.get_eq_getElem]
  obtain ⟨calls, hwith, hrun⟩ := run_of_samples h hs
  refine ⟨calls, hwith, ?_⟩
  rcases hrun with ⟨r, hpass, rfl, hall⟩ | ⟨k, hk, panic, hfail, hbad, hgood⟩
  · have hproves : ∀ v ∈ values, (p.predicate (image v)).verdict = .pass := by
      intro v hv
      obtain ⟨i, hi, rfl⟩ := List.getElem_of_mem hv
      rw [← hround hi]
      exact hall i (Nat.lt_of_lt_of_le hi hlimit)
    refine ⟨fun _ _ => hproves, fun _ _ => ?_, fun _ _ => ⟨r, hpass⟩,
      fun ⟨v, hv, hbad⟩ => absurd (hproves v hv) hbad⟩
    refine ⟨_, ?_, count_rounds_floor_or_ceil hvalues config.testLimit⟩
    rw [List.map_map]
    rfl
  · -- The first failure comes in the first round, since later rounds bring nothing new.
    have hlt : k < values.length := by
      by_contra hge
      have hmod := Nat.mod_lt k hvalues
      have hearlier := hgood (k % values.length) (by omega)
      simp only [Sample.plain, Nat.mod_mod] at hearlier hbad
      exact hbad hearlier
    have hfirst : values.findIdx (fun v => (p.predicate (image v)).verdict ≠ .pass) = k := by
      rw [List.findIdx_eq hlt]
      refine ⟨?_, fun i hi => ?_⟩
      · rw [decide_eq_true_iff, ← hround hlt]
        exact hbad
      · rw [decide_eq_false_iff_not, ← hround (Nat.lt_trans hi hlt), not_not]
        exact hgood i hi
    have hne : ∀ r, p.runFrom config source ≠ .ok (.pass r) := by
      intro r hr
      cases hr.symm.trans hfail
    refine ⟨fun r hr => absurd hr (hne r), fun r hr => absurd hr (hne r), fun hall _ => ?_,
      fun _ _ => ?_⟩
    · rw [hround hlt] at hbad
      exact absurd (hall _ (List.getElem_mem hlt)) hbad
    refine ⟨_, hfail, ?_, ?_⟩
    · rw [hfirst, Nat.add_comm]
      rfl
    · exact Tree.steps_minimize_leaf config.shrinkLimit _ _

omit [Inspect γ] in
theorem minIterations_le_of_validate (h : p.validate config = .ok ()) :
    p.gen.minIterations ≤ config.testLimit := by
  rw [validate_eq] at h
  split at h
  · cases h
  · split at h
    · cases h
    · omega

/-- A run with fewer tests than there are values is refused, and says nothing of
them. -/
theorem covers_of_refused {fault : Fault} (h : p.validate config = .error fault)
    (hvalues : 0 < values.length) (hmin : p.gen.minIterations = values.length) :
    p.runWith (noting p.predicate) config source [] = (p.runFrom config source, []) ∧
      Covers values image p.predicate config (p.runFrom config source) [] := by
  obtain ⟨hfrom, hwith⟩ := run_refused source h (noting p.predicate) []
  have hlimit : config.testLimit < values.length := by
    by_contra hge
    rw [validate_eq, if_neg (by omega), if_neg (by omega)] at h
    cases h
  rw [hfrom]
  refine ⟨hwith, fun r hr => ?_, fun r hr => ?_, fun _ hle => absurd hle (by omega),
    fun _ hle => absurd hle (by omega)⟩
  · cases hr
  · cases hr

end Covers

/-- An enumeration of a list of at least one value, to which functions were
applied before and after it became a generator. Its stream goes round and round
through the images of the values, and none of them shrinks; a run on it covers
them. -/
theorem run_enumeration {α β γ : Type} [Inspect γ] (values : List α) (hvalues : values ≠ [])
    (direct : Maps α β) (later : Maps β γ) :
    ∃ x, Enumeration.ofList values = .ok x ∧
      let gen := later.generator (.exhaustive (direct.enumeration x))
      let image := later.image ∘ direct.image
      (∀ source edge i, ∃ v, values[i % values.length]? = some v ∧
        (gen.generate source edge).nth i = .ok (.plain (image v))) ∧
      ∀ predicate variableName name config freshSeed,
        let p : Property γ := ⟨gen, predicate, variableName, name⟩
        ∃ calls, p.runWith (noting predicate) config (.seeded (config.seed.getD freshSeed)) [] =
            (p.run config freshSeed, calls) ∧
          Covers values image predicate config (p.run config freshSeed) calls := by
  obtain ⟨x, hx, hlist⟩ := Enumeration.exists_ofList hvalues
  have hpos := List.length_pos_iff.2 hvalues
  have hnth := Samples.nth_enumeration hlist direct later
  refine ⟨x, hx, hnth, ?_⟩
  intro predicate variableName name config freshSeed p
  have hmin : p.gen.minIterations = values.length :=
    Maps.minIterations_generator hlist direct later
  cases h : p.validate config with
  | error fault => exact ⟨[], covers_of_refused h hpos hmin⟩
  | ok _ =>
    have hlimit := hmin ▸ minIterations_le_of_validate h
    refine covers_of_rounds hpos hlimit h fun i => ?_
    obtain ⟨v, hv, hi⟩ := hnth (.seeded (config.seed.getD freshSeed)) config.edge i
    obtain ⟨hlt, rfl⟩ := List.getElem?_eq_some_iff.1 hv
    exact hi

/-- Doubled and then made odd, the third value is the first that is not below
seven. -/
theorem run_enumeration_third :
    ([1, 2, 3, 5] : List Int64) ≠ [] ∧ ∃ x, Enumeration.ofList [1, 2, 3, 5] = .ok x ∧
      let direct : Maps Int64 Int64 := .next (fun n : Int64 => 2 * n) .done
      let later : Maps Int64 Int64 := .next (fun n : Int64 => n + 1) .done
      let p : Property Int64 := ⟨later.generator (.exhaustive (direct.enumeration x)),
        fun n => ⟨[], if n < 7 then .pass else .fail none⟩, none, none⟩
      ∃ r, p.run { testLimit := 4 } 9 = .ok (.fail r) ∧ r.testsRun = 3 ∧ r.shrinks = 0 := by
  have hvalues : ([1, 2, 3, 5] : List Int64) ≠ [] := by decide
  obtain ⟨x, hx, -, hrun⟩ := run_enumeration [1, 2, 3, 5] hvalues
    (.next (fun n : Int64 => 2 * n) .done) (.next (fun n : Int64 => n + 1) .done)
  obtain ⟨calls, -, hcovers⟩ := hrun (fun n => ⟨[], if n < 7 then .pass else .fail none⟩) none none
    { testLimit := 4 } 9
  obtain ⟨r, hr, htests, hshrinks⟩ := hcovers.refutes ⟨3, by decide, by decide⟩ (by decide)
  exact ⟨hvalues, x, hx, r, hr, htests.trans (by decide), hshrinks⟩

end Property

end PropertyTesting
