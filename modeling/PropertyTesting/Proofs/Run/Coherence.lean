import PropertyTesting.Proofs.Minimize.Record
import PropertyTesting.Proofs.Minimize.Turns
import PropertyTesting.Proofs.Run.FirstFailure
import PropertyTesting.Proofs.Text.Form

/-!
The report of a failed run hangs together. Its steps are numbered and lead from
the first counterexample to the one that is reported, no two of them are written
alike, and its message is what the predicate says of the reported one. That
message comes from the tests if nothing was accepted, and from the search if
something was; `Spoken` says that between the two it is always the right one.
-/

namespace PropertyTesting

namespace Minimize

variable {τ α : Type} [Branching τ α] [Inspect α]

open Branching Inspect

/-- What the predicate says of the node that a search has come to is known: from
the last value that was accepted, or from the tests if the root is the only one. -/
structure Spoken (check : α → Verdict) (panic : Option String) (t : τ) (p : Progress α) :
    Prop where
  form : inspect (value t) = p.form
  /-- The last value that was accepted is written like the node. -/
  newest : ∃ v, p.accepted.head? = some v ∧ inspect v = p.form
  verdict : check (value t) = .fail (if 0 < p.steps then p.panic else panic)

namespace Spoken

variable {check : α → Verdict} {panic : Option String}

theorem start {root : τ} (hroot : check (value root) = .fail panic) :
    Spoken check panic root (Progress.start (value root)) where
  form := rfl
  newest := ⟨value root, rfl, rfl⟩
  verdict := hroot

theorem accept {p : Progress α} {c : τ} {message : Option String}
    (hc : check (value c) = .fail message) :
    Spoken check panic c (p.accept (value c) message) where
  form := rfl
  newest := ⟨value c, rfl, rfl⟩
  verdict := by
    have hsteps : 0 < (p.accept (value c) message).steps := Nat.succ_pos p.steps
    rw [if_pos hsteps, hc]
    rfl

theorem invariant (hcheck : ∀ v w, inspect v = inspect w → check v = check w)
    (panic : Option String) : Invariant check (fun t : τ => Spoken check panic t) where
  expand h := ⟨h.form, h.newest, h.verdict⟩
  note h _ _ _ := ⟨h.form, h.newest, h.verdict⟩
  accept _ _ _ hfail := .accept hfail
  sideways := by
    intro t p c h _ hform
    -- A child that is written like the node is spoken of like the node.
    exact ⟨hform, h.newest, hcheck _ _ (hform.trans h.form.symm) ▸ h.verdict⟩

end Spoken

/-- What the predicate says of the outcome of a search, and that the last value
that was accepted is written like it. -/
theorem minimize_spoken (limit : Nat) {check : α → Verdict}
    (hcheck : ∀ v w, inspect v = inspect w → check v = check w) {root : τ}
    {panic : Option String} (hroot : check (value root) = .fail panic) :
    check (minimize limit check root).value =
        .fail (if 0 < (minimize limit check root).steps then (minimize limit check root).panic
          else panic) ∧
      ∃ v, (minimize limit check root).progression.getLast? = some v ∧
        inspect v = inspect (minimize limit check root).value := by
  obtain ⟨u, q, exhausted, hend, hspoken, -⟩ :=
    (Spoken.invariant hcheck panic).search limit limit (Spoken.start hroot)
  obtain ⟨v, hv, hform⟩ := hspoken.newest
  rw [minimize, hend]
  exact ⟨hspoken.verdict, v, (List.getLast?_reverse ..).trans hv,
    hform.trans hspoken.form.symm⟩

end Minimize

/-- What a report of a failed run says of its run holds together. -/
structure Failed.Coherent {α : Type} [Inspect α] (r : Failed) (predicate : α → Trial)
    (config : Config) : Prop where
  /-- One step for the first counterexample and one for each accepted one. -/
  numbers : r.steps.map ShrinkStep.step = List.range (r.shrinks + 1)
  bounded : r.shrinks ≤ config.shrinkLimit
  first : r.steps.head?.map ShrinkStep.counterexample = some r.initial
  last : r.steps.getLast?.map ShrinkStep.counterexample = some r.counterexample
  distinct : (r.steps.map ShrinkStep.counterexample).Nodup
  /-- The reported counterexample is a value, and of it the predicate says what
  the report says. -/
  shown : ∃ v : α, Inspect.inspect v = r.counterexample
  panic : ∀ v, Inspect.inspect v = r.counterexample → (predicate v).verdict = .fail r.panic

namespace Property

variable {α : Type} [Inspect α]

/-- A run that reports a failure has come to a failing sample and minimized it. -/
theorem of_runFrom_fail {p : Property α} {config : Config} {source : RandomSource} {r : Failed}
    (h : p.runFrom config source = .ok (.fail r)) :
    ∃ place sample panic, (p.predicate sample.value).verdict = .fail panic ∧
      r = p.failed source.seed place sample panic (p.shrunk config sample) := by
  cases hvalidate : p.validate config with
  | error fault =>
    obtain ⟨hfrom, -⟩ := run_refused source hvalidate (noting p.predicate) []
    cases hfrom.symm.trans h
  | ok _ =>
    obtain ⟨calls, htests, -⟩ :=
      test_spec p.predicate config.testLimit 0 .empty (p.gen.generate source config.edge)
    rw [runFrom_eq source hvalidate] at h
    generalize test p.predicate config.testLimit 0 .empty (p.gen.generate source config.edge) =
      result at htests h
    generalize (p.gen.generate source config.edge).take config.testLimit = elements at htests
    cases htests with
    | passed => cases h
    | fault => cases h
    | @failed good sample panic rest _ hbad =>
      obtain ⟨⟩ := h
      exact ⟨_, sample, panic, hbad, rfl⟩

section Report

variable (p : Property α) (seed : UInt64) (place : Nat) (sample : Sample α)
  (panic : Option String) (m : Minimized α)

/-- The texts of the steps are those of the accepted values. -/
theorem counterexamples_failed :
    (p.failed seed place sample panic m).steps.map ShrinkStep.counterexample =
      m.progression.map Inspect.inspect := by
  rw [failed, List.map_map]
  show m.progression.zipIdx.map (Inspect.inspect ∘ Prod.fst) = _
  rw [← List.map_map, List.zipIdx_map_fst]

/-- The steps are numbered from zero. -/
theorem numbers_failed :
    (p.failed seed place sample panic m).steps.map ShrinkStep.step =
      List.range m.progression.length := by
  rw [failed, List.map_map]
  show m.progression.zipIdx.map Prod.snd = _
  rw [List.zipIdx_map_snd, List.range_eq_range']

end Report

/-- The report on a failing sample that was minimized is coherent if what the
predicate says depends on no more than how a value is written. -/
theorem coherent_failed {p : Property α} {config : Config} {seed : UInt64} {place : Nat}
    {sample : Sample α} {panic : Option String}
    (hform : ∀ v w, Inspect.inspect v = Inspect.inspect w →
      (p.predicate v).verdict = (p.predicate w).verdict)
    (hbad : (p.predicate sample.value).verdict = .fail panic) :
    (p.failed seed place sample panic (p.shrunk config sample)).Coherent p.predicate config := by
  let check : α → Verdict := fun v => (p.predicate v).verdict
  have hroot : check (Branching.value sample.shrinks) = .fail panic := by
    show (p.predicate sample.shrinks.value).verdict = _
    rw [sample.root, hbad]
  have hm : p.shrunk config sample = Minimize.minimize config.shrinkLimit check sample.shrinks :=
    Tree.minimize_eq ..
  obtain ⟨vs, hvs, hsteps, hsub⟩ :=
    Minimize.progression_minimize config.shrinkLimit check sample.shrinks
  obtain ⟨hspoken, v, hv, hlast⟩ := Minimize.minimize_spoken config.shrinkLimit hform hroot
  have hle := Minimize.steps_minimize_le config.shrinkLimit check sample.shrinks
  have honce := Minimize.forms_tried_nodup config.shrinkLimit check sample.shrinks
  rw [← hm] at hvs hsteps hsub hspoken hv hlast hle honce
  have htexts := counterexamples_failed p seed place sample panic (p.shrunk config sample)
  refine ⟨?_, hle, ?_, ?_, ?_, ⟨_, rfl⟩, ?_⟩
  · rw [numbers_failed, hvs, List.length_cons, ← hsteps]
    rfl
  · rw [← List.head?_map, htexts, hvs]
    rfl
  · rw [← List.getLast?_map, htexts, List.getLast?_map, hv, Option.map_some, hlast]
    rfl
  · rw [htexts, hvs]
    exact honce.sublist ((hsub.cons_cons _).map Inspect.inspect)
  · intro w hw
    rw [hform w _ hw, hspoken]
    rfl

/-- The report of every failed run is coherent if what the predicate says
depends on no more than how a value is written. -/
theorem run_coherent (p : Property α) (config : Config) (freshSeed : UInt64)
    (hform : ∀ v w, Inspect.inspect v = Inspect.inspect w →
      (p.predicate v).verdict = (p.predicate w).verdict)
    {r : Failed} (hrun : p.run config freshSeed = .ok (.fail r)) :
    r.Coherent p.predicate config := by
  obtain ⟨place, sample, panic, hbad, rfl⟩ := of_runFrom_fail hrun
  exact coherent_failed hform hbad

/-- A run on a tree in which a sideways move leads to a smaller counterexample, of
which the predicate says something else than of the first. -/
theorem run_coherent_sideways :
    let t : Tree Int64 := .node 30 [.node 30 [.leaf 0, .leaf 12]]
    let p : Property Int64 :=
      ⟨.arbitrary (.ofSampler (return .ofTree t)),
        fun n => ⟨[], if n < 10 then .pass else .fail (some (Inspect.inspect n))⟩, none, none⟩
    let config : Config := { testLimit := 1, seed := some 7 }
    (∀ v w, Inspect.inspect v = Inspect.inspect w →
      (p.predicate v).verdict = (p.predicate w).verdict) ∧
      ∃ r, p.run config 0 = .ok (.fail r) ∧ r.Coherent p.predicate config := by
  have hform {ρ : Type} (f : Int64 → ρ) (v w : Int64)
      (h : Inspect.inspect v = Inspect.inspect w) : f v = f w := by
    rw [inspect_int64_injective h]
  exact ⟨hform _, _, rfl, run_coherent _ _ 0 (hform _) rfl⟩

end Property

end PropertyTesting
