import PropertyTesting.Proofs.Minimize.Consult

/-!
The first failure of a run. The samples of a stream are tested in order, and
the first of them that is a fault, or on which the predicate fails, decides
what is reported; whatever comes later in the stream is not looked at. `Tests`
lists the ways in which the tests end, and `Reports` what the run makes of them.
-/

namespace PropertyTesting

namespace Minimize

variable {τ α : Type} [Branching τ α] [Inspect α]

open Branching

/-- A search does not leave the tree that it started in, and neither does
anything that it tries. -/
def Within (root t : τ) (p : Progress α) : Prop :=
  Reaches root t ∧ ∀ v ∈ p.tried, ∃ u, Reaches root u ∧ value u = v

theorem Within.invariant (check : α → Verdict) (root : τ) :
    Invariant check (Within root) where
  expand h := h
  note h hc _ _ := ⟨h.1, List.forall_mem_cons.2 ⟨⟨_, h.1.down hc, rfl⟩, h.2⟩⟩
  accept h hc _ _ := ⟨h.1.down hc, List.forall_mem_cons.2 ⟨⟨_, h.1.down hc, rfl⟩, h.2⟩⟩
  sideways h hc _ := ⟨h.1.down hc, h.2⟩

theorem reaches_of_mem_tried {limit : Nat} {check : α → Verdict} {root : τ} {v : α}
    (h : v ∈ (minimize limit check root).tried) : ∃ u, Reaches root u ∧ value u = v := by
  have hstart : Within root root (Progress.start (value root)) :=
    ⟨.refl root, fun _ hv => absurd hv List.not_mem_nil⟩
  obtain ⟨u, q, exhausted, hend, hwithin, -⟩ :=
    (Within.invariant check root).search limit limit hstart
  rw [minimize, hend] at h
  exact hwithin.2 v (List.mem_reverse.1 h)

end Minimize

/-- What comes after a question goes on with the answer, and the question is
noted. -/
theorem bind_noting {α ρ β : Type} (f : α → ρ) (v : α) (next : ρ → StateM (List α) β)
    (asked : List α) : (noting f v >>= next) asked = next (f v) (asked ++ [v]) :=
  rfl

namespace Property

variable {α : Type}

/-- The predicate passes on all of these samples. -/
def AllPass (predicate : α → Trial) (samples : List (Sample α)) : Prop :=
  ∀ sample ∈ samples, (predicate sample.value).verdict = .pass

/-- How the tests of a stream end, counted from a place, and what the predicate
is asked about on the way. -/
inductive Tests (predicate : α → Trial) (place : Nat) :
    List (Except Fault (Sample α)) → Except Fault (Tested α) → List α → Prop where
  | passed {good : List (Sample α)} {tally : Tally} : AllPass predicate good →
      Tests predicate place (good.map .ok) (.ok (.passed tally)) (good.map Sample.value)
  | fault {good : List (Sample α)} {fault : Fault} {rest : List (Except Fault (Sample α))} :
      AllPass predicate good →
      Tests predicate place (good.map .ok ++ .error fault :: rest) (.error fault)
        (good.map Sample.value)
  | failed {good : List (Sample α)} {sample : Sample α} {panic : Option String}
      {rest : List (Except Fault (Sample α))} : AllPass predicate good →
      (predicate sample.value).verdict = .fail panic →
      Tests predicate place (good.map .ok ++ .ok sample :: rest)
        (.ok (.failed (place + good.length) sample panic))
        (good.map Sample.value ++ [sample.value])

section Tests

variable {predicate : α → Trial} {place : Nat} {sample : Sample α}
  {elements : List (Except Fault (Sample α))} {result : Except Fault (Tested α)} {calls : List α}

theorem AllPass.cons {samples : List (Sample α)}
    (hsample : (predicate sample.value).verdict = .pass) (h : AllPass predicate samples) :
    AllPass predicate (sample :: samples) :=
  List.forall_mem_cons.2 ⟨hsample, h⟩

/-- A sample on which the predicate passes is counted and gone past. -/
theorem Tests.cons (hsample : (predicate sample.value).verdict = .pass)
    (h : Tests predicate (place + 1) elements result calls) :
    Tests predicate place (.ok sample :: elements) result (sample.value :: calls) := by
  cases h with
  | passed hgood => exact .passed (hgood.cons hsample)
  | fault hgood => exact .fault (hgood.cons hsample)
  | @failed good bad panic rest hgood hbad =>
    have hplace : place + 1 + good.length = place + (sample :: good).length := by
      rw [List.length_cons]
      omega
    rw [hplace]
    exact .failed (hgood.cons hsample) hbad

/-- How the tests of the first samples of a stream end, and that a predicate
that notes what it is asked notes just that. -/
theorem test_spec (predicate : α → Trial) (n place : Nat) (tally : Tally) (samples : Samples α) :
    ∃ calls, Tests predicate place (samples.take n) (test predicate n place tally samples) calls ∧
      ∀ asked, testWith (noting predicate) n place tally samples asked =
        (test predicate n place tally samples, asked ++ calls) := by
  have hnil : AllPass predicate [] := fun _ h => absurd h List.not_mem_nil
  induction n generalizing place tally samples with
  | zero => exact ⟨[], .passed hnil, fun asked => by rw [List.append_nil]; rfl⟩
  | succ n ih =>
    obtain ⟨first, later, hnext⟩ : ∃ first later, samples.next = (first, later) := ⟨_, _, rfl⟩
    cases first with
    | error fault =>
      rw [Samples.take, test, testWith]
      simp only [hnext]
      exact ⟨[], .fault hnil, fun asked => by rw [List.append_nil]; rfl⟩
    | ok sample =>
      cases hverdict : (predicate sample.value).verdict with
      | fail panic =>
        rw [Samples.take, test, testWith]
        simp only [hnext, hverdict]
        refine ⟨[sample.value], .failed hnil hverdict, fun asked => ?_⟩
        rw [bind_noting]
        simp only [hverdict]
        rfl
      | pass =>
        obtain ⟨calls, htests, hnoted⟩ := ih (place + 1)
          (tally.merge (Classification.table (predicate sample.value).remarks)) later
        rw [Samples.take, test, testWith]
        simp only [hnext, hverdict]
        refine ⟨sample.value :: calls, htests.cons hverdict, fun asked => ?_⟩
        rw [bind_noting]
        simp only [hverdict, hnoted, List.append_assoc, List.singleton_append]

end Tests

section Run

variable [Inspect α]

/-- What a run reports of the first elements of its stream, and what its
predicate is asked about. -/
inductive Reports (p : Property α) (config : Config) :
    List (Except Fault (Sample α)) → Except Fault Outcome → List α → Prop where
  | pass {good : List (Sample α)} {run : Passed} : AllPass p.predicate good →
      run.testsRun = config.testLimit → run.tally.total = config.testLimit →
      Reports p config (good.map .ok) (.ok (.pass run)) (good.map Sample.value)
  | fault {good : List (Sample α)} {fault : Fault} {rest : List (Except Fault (Sample α))} :
      AllPass p.predicate good →
      Reports p config (good.map .ok ++ .error fault :: rest) (.error fault)
        (good.map Sample.value)
  /-- What is asked about after the failing sample lies in its shrink tree. -/
  | fail {good : List (Sample α)} {sample : Sample α} {rest : List (Except Fault (Sample α))}
      {run : Failed} {tried : List α} : AllPass p.predicate good →
      (p.predicate sample.value).verdict ≠ .pass → run.testsRun = good.length + 1 →
      run.initial = Inspect.inspect sample.value →
      (∀ v ∈ tried, ∃ u, Branching.Reaches sample.shrinks u ∧ u.value = v) →
      Reports p config (good.map .ok ++ .ok sample :: rest) (.ok (.fail run))
        (good.map Sample.value ++ sample.value :: tried)

variable (p : Property α) (config : Config) (source : RandomSource)

omit [Inspect α] in
theorem validate_eq : p.validate config =
    if config.testLimit = 0 then .error (.config .noIterations)
    else if config.testLimit < p.gen.minIterations then
      .error (.tooFewIterations config.testLimit p.gen.minIterations)
    else .ok () := by
  unfold validate
  split
  · rfl
  · split
    · rfl
    · rfl

variable {p config} in
/-- A run that is refused asks its predicate about nothing. -/
theorem run_refused {σ : Type} {fault : Fault} (h : p.validate config = .error fault)
    (ask : α → StateM σ Trial) (s : σ) :
    p.runFrom config source = .error fault ∧
      p.runWith ask config source s = (.error fault, s) := by
  rw [runFrom, runWith, h]
  exact ⟨rfl, rfl⟩

/-- Minimizing a sample notes what was tried. -/
theorem consult_shrunk (sample : Sample α) (asked : List α) :
    Minimize.consult config.shrinkLimit
        (fun v => do
          let trial ← noting p.predicate v
          return trial.verdict)
        sample.shrinks asked =
      (p.shrunk config sample, asked ++ (p.shrunk config sample).tried) := by
  rw [shrunk, Tree.minimize_eq]
  exact Minimize.consult_noting config.shrinkLimit (fun v => (p.predicate v).verdict)
    sample.shrinks asked

/-- What a run asks about when its tests are over: what is tried while a failing
sample is minimized. -/
def triedAfter : Except Fault (Tested α) → List α
  | .error _ => []
  | .ok (.passed _) => []
  | .ok (.failed _ sample _) => (p.shrunk config sample).tried

variable {p config} in
/-- What a run that is not refused comes to. -/
theorem runFrom_eq (h : p.validate config = .ok ()) :
    p.runFrom config source =
      (test p.predicate config.testLimit 0 .empty (p.gen.generate source config.edge)).map
        (p.conclude config source.seed) := by
  rw [runFrom, h]
  show test p.predicate config.testLimit 0 .empty (p.gen.generate source config.edge) >>=
    (fun tested => pure (p.conclude config source.seed tested)) = _
  cases test p.predicate config.testLimit 0 .empty (p.gen.generate source config.edge) with
  | error fault => rfl
  | ok tested => rfl

variable {p config} in
/-- What a run that is not refused comes to if it notes what it asks, and what it
notes. -/
theorem runWith_noting (h : p.validate config = .ok ()) {result : Except Fault (Tested α)}
    {calls : List α}
    (hnoted : testWith (noting p.predicate) config.testLimit 0 .empty
      (p.gen.generate source config.edge) [] = (result, calls)) :
    p.runWith (noting p.predicate) config source [] =
      (result.map (p.conclude config source.seed), calls ++ p.triedAfter config result) := by
  rw [runWith, h]
  simp only [bind, StateT.bind, hnoted]
  cases result with
  | error fault => rw [triedAfter, List.append_nil]; rfl
  | ok tested =>
    cases tested with
    | passed tally => rw [triedAfter, List.append_nil]; rfl
    | failed place sample panic =>
      have hconsult := consult_shrunk p config sample calls
      simp only [bind, StateT.bind] at hconsult ⊢
      rw [hconsult]
      rfl

variable {p config} in
/-- A run that is not refused reports the first failure of its stream. -/
theorem run_reports (h : p.validate config = .ok ()) :
    ∃ calls, p.runWith (noting p.predicate) config source [] =
        (p.runFrom config source, calls) ∧
      Reports p config ((p.gen.generate source config.edge).take config.testLimit)
        (p.runFrom config source) calls := by
  obtain ⟨calls, htests, hnoted⟩ :=
    test_spec p.predicate config.testLimit 0 .empty (p.gen.generate source config.edge)
  have hwith := runWith_noting source h (hnoted [])
  rw [← runFrom_eq source h] at hwith
  refine ⟨_, hwith, ?_⟩
  rw [runFrom_eq source h]
  generalize test p.predicate config.testLimit 0 .empty (p.gen.generate source config.edge) =
    result at htests ⊢
  generalize (p.gen.generate source config.edge).take config.testLimit = elements at htests ⊢
  cases htests with
  | passed hgood =>
    rw [triedAfter, List.append_nil]
    exact .pass hgood rfl rfl
  | fault hgood =>
    rw [triedAfter, List.append_nil]
    exact .fault hgood
  | @failed good sample panic rest hgood hbad =>
    have hne : (p.predicate sample.value).verdict ≠ .pass := by
      rw [hbad]
      exact Verdict.noConfusion
    rw [List.nil_append, List.append_assoc]
    refine .fail hgood hne ?_ ?_ ?_
    · show 0 + good.length + 1 = good.length + 1
      rw [Nat.zero_add]
    · show Inspect.inspect sample.shrinks.value = Inspect.inspect sample.value
      rw [sample.root]
    · intro v hv
      rw [triedAfter, shrunk, Tree.minimize_eq] at hv
      exact Minimize.reaches_of_mem_tried hv

end Run

/-- A seeded run is refused, or it reports the first failure of the stream that
its seed gives; and its predicate is asked about no sample after that. -/
theorem run_first_failure [Inspect α] (p : Property α) (config : Config)
    (seed freshSeed : UInt64) (hseed : config.seed = some seed) :
    ∃ calls, p.runWith (noting p.predicate) config (.seeded seed) [] =
        (p.run config freshSeed, calls) ∧
      if config.testLimit = 0 then
        p.run config freshSeed = .error (.config .noIterations) ∧ calls = []
      else if config.testLimit < p.gen.minIterations then
        p.run config freshSeed =
          .error (.tooFewIterations config.testLimit p.gen.minIterations) ∧ calls = []
      else
        Reports p config ((p.gen.generate (.seeded seed) config.edge).take config.testLimit)
          (p.run config freshSeed) calls := by
  have hrun : p.run config freshSeed = p.runFrom config (.seeded seed) := by
    rw [run, hseed]
    rfl
  have hvalidate := validate_eq p config
  rw [hrun]
  split
  · rename_i hzero
    rw [if_pos hzero] at hvalidate
    obtain ⟨hfrom, hwith⟩ := run_refused (.seeded seed) hvalidate (noting p.predicate) []
    exact ⟨[], hfrom ▸ hwith, hfrom, rfl⟩
  · rename_i hzero
    rw [if_neg hzero] at hvalidate
    split
    · rename_i hfew
      rw [if_pos hfew] at hvalidate
      obtain ⟨hfrom, hwith⟩ := run_refused (.seeded seed) hvalidate (noting p.predicate) []
      exact ⟨[], hfrom ▸ hwith, hfrom, rfl⟩
    · rename_i hfew
      rw [if_neg hfew] at hvalidate
      exact run_reports (.seeded seed) hvalidate

/-- The predicate passes on the first value of an enumeration and breaks off on
the second, which is reported. -/
theorem run_first_failure_second :
    let p : Property Bool :=
      ⟨.exhaustive .bool, fun b => ⟨[], if b then .fail (some "broke off") else .pass⟩, none, none⟩
    let config : Config := { testLimit := 5, seed := some 7 }
    config.seed = some 7 ∧
      (∃ calls, p.runWith (noting p.predicate) config (.seeded 7) [] = (p.run config 0, calls) ∧
        Reports p config ((p.gen.generate (.seeded 7) config.edge).take 5) (p.run config 0) calls) ∧
      ∃ r, p.run config 0 = .ok (.fail r) ∧ r.testsRun = 2 ∧ r.initial = "true" :=
  ⟨rfl, run_first_failure _ _ 7 0 rfl, _, rfl, rfl, rfl⟩

end Property

end PropertyTesting
