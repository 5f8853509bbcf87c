import PropertyTesting.Proofs.Generate.Broken
import PropertyTesting.Proofs.Run.FirstFailure

/-!
Runs with broken arbitraries. A draw from a broken arbitrary is a fault whether or
not it was to be an edge case, so its stream is made of faults only, and a run
stops at the first of them. No broken arbitrary that is built into another one can
be told from a report.
-/

namespace PropertyTesting

variable {α : Type} {a : Arbitrary α}

namespace Arbitrary.Broken

/-- The fault does not depend on the roll for an edge case: if one is asked for there is
none, and a fresh sample is drawn after all. -/
theorem draw (h : a.Broken) (edge : EdgeChance) : (Samples.draw a edge).Fails := by
  intro rs
  rcases hroll : edge.roll rs with ⟨roll, rs'⟩
  cases roll with
  | false =>
    rw [Samples.draw_of_fresh hroll]
    exact h.sample rs'
  | true =>
    rw [Samples.draw_of_no_edge hroll (Prod.ext (h.edge rs') rfl)]
    exact h.sample _

theorem nth (h : a.Broken) (source : RandomSource) (edge : EdgeChance) (i : Nat) :
    ∃ fault, ((Generator.arbitrary a).generate source edge).nth i = .error fault := by
  obtain ⟨rs, result, rs', -, hdraw, hnth⟩ := Samples.exists_nth_random a edge source i
  obtain ⟨fault, hfault⟩ := h.draw edge rs
  rw [hdraw] at hfault
  exact ⟨fault, hnth.trans hfault⟩

end Arbitrary.Broken

namespace Property

variable [Inspect α]

/-- A run that begins with a fault ends with it. -/
theorem runFrom_of_fault {p : Property α} {config : Config} {source : RandomSource} {fault : Fault}
    (hvalid : p.validate config = .ok ()) (hlimit : 1 ≤ config.testLimit)
    (hfirst : (p.gen.generate source config.edge).nth 0 = .error fault) :
    p.runFrom config source = .error fault := by
  obtain ⟨n, hn⟩ := Nat.exists_eq_add_of_le' hlimit
  rcases hnext : (p.gen.generate source config.edge).next with ⟨result, rest⟩
  have hresult : result = .error fault := by rwa [Samples.nth, hnext] at hfirst
  rw [runFrom_eq source hvalid, hn, test, hnext, hresult]
  rfl

/-- A run with a broken arbitrary ends with the first fault of its stream. -/
theorem run_broken (h : a.Broken) {p : Property α} (hgen : p.gen = .arbitrary a)
    {config : Config} (hlimit : 1 ≤ config.testLimit) (freshSeed : UInt64) :
    ∃ fault, p.run config freshSeed = .error fault ∧
      (p.gen.generate (.seeded (config.seed.getD freshSeed)) config.edge).nth 0 =
        .error fault := by
  obtain ⟨fault, hfirst⟩ := h.nth (.seeded (config.seed.getD freshSeed)) config.edge 0
  rw [← hgen] at hfirst
  have hvalid : p.validate config = .ok () := by
    rw [validate_eq, if_neg (by omega), hgen, Generator.minIterations,
      if_neg (Nat.not_lt.2 hlimit)]
  exact ⟨fault, runFrom_of_fault hvalid hlimit hfirst, hfirst⟩

end Property

namespace Arbitrary

/-- A broken arbitrary is never masked. Empty ranges are broken, and so is whatever must
draw from a broken arbitrary; all that a stream of a broken arbitrary gives is faults, and
a run with it ends with one. The fault of a product is that of the first input that fails
on its fork, at the cost of one draw for each input up to that one. -/
theorem broken_never_masked :
    ((∀ {lo hi : Int64}, hi < lo → (longRange lo hi).Broken) ∧
      (∀ {lo hi : Int32}, hi < lo → (intRange lo hi).Broken) ∧
      (∀ {min max : Nat}, max < min → (stringOf min max).Broken) ∧
      ∀ {α : Type} (a : Arbitrary α) {min max : Nat}, max < min → (a.list min max).Broken) ∧
    ((∀ {types : List Type} {as : Inputs types}, as.AnyBroken →
        (zip as).Broken ∧ ∀ {β : Type} (f : Tuple types → β), (bind as f).Broken) ∧
      ∀ {α : Type} {a : Arbitrary α} {as : List (Arbitrary α)}, a.Broken → a ∈ as →
        (sequence as).Broken ∧ ∀ {β : Type} (f : List α → β), (bindAll as f).Broken) ∧
    (∀ {α : Type} {a : Arbitrary α}, a.Broken →
      (∀ {β : Type} (f : α → β), (a.map f).Broken) ∧
      (∀ (p : α → Bool) (limit : Nat), (a.filter p limit).Broken) ∧
      (∀ {β : Type} (f : α → Arbitrary β), (a.flatMap f).Broken) ∧
      ∀ {min max : Nat}, 1 ≤ min → min ≤ max → (a.list min max).Broken) ∧
    (∀ {α : Type} {a : Arbitrary α}, a.Broken →
      (∀ source edge i,
        ∃ fault, ((Generator.arbitrary a).generate source edge).nth i = .error fault) ∧
      ∀ [Inspect α] {p : Property α} {config : Config} (freshSeed : UInt64),
        p.gen = .arbitrary a → 1 ≤ config.testLimit →
        ∃ fault, p.run config freshSeed = .error fault) ∧
    (∀ {α β : Type} {as : List (Arbitrary α)} {rs rs' : RandomSource} {e : Fault} (f : List α → β),
      ((sequence as).sample rs = (.error e, rs') ↔ FirstFault rs as e rs') ∧
      ((bindAll as f).sample rs = (.error e, rs') ↔ FirstFault rs as e rs')) ∧
    ∀ {types : List Type} {β : Type} {as : Inputs types} {rs rs' : RandomSource} {e : Fault}
      (f : Tuple types → β),
      ((zip as).sample rs = (.error e, rs') ↔ as.FirstFault rs e rs') ∧
      ((bind as f).sample rs = (.error e, rs') ↔ as.FirstFault rs e rs') := by
  refine ⟨⟨broken_longRange, broken_intRange, broken_stringOf, broken_list⟩, ⟨?_, ?_⟩, ?_, ?_, ?_,
    ?_⟩
  · intro types as h
    exact ⟨h.zip, h.zip.map⟩
  · intro α a as h ha
    exact ⟨h.sequence ha, (h.sequence ha).map⟩
  · intro α a h
    exact ⟨h.map, h.filter, h.flatMap, h.list⟩
  · intro α a h
    refine ⟨h.nth, fun freshSeed hgen hlimit => ?_⟩
    obtain ⟨fault, hrun, -⟩ := Property.run_broken h hgen hlimit freshSeed
    exact ⟨fault, hrun⟩
  · intro α β as rs rs' e f
    refine ⟨sequence_eq_error, ?_⟩
    rw [bindAll, sample_map, Attempt.map_eq_error, sequence_eq_error]
  · intro types β as rs rs' e f
    refine ⟨zip_eq_error, ?_⟩
    rw [bind, sample_map, Attempt.map_eq_error, zip_eq_error]

/-- A die without faces, beside a coin, among coins and inside of lists, and a run with it. -/
theorem broken_never_masked_die :
    ((6 : Int64) < 7 ∧ (longRange 7 6).Broken) ∧
    ((zip (.cons bool (.cons (longRange 7 6) .nil))).Broken ∧
      (sequence [bool.map fun _ => 1, longRange 7 6]).Broken) ∧
    ((((longRange 7 6).map (· + 1)).filter (· != 0) 0).list 1 3).Broken ∧
    (∃ fault,
      ((Generator.arbitrary (longRange 7 6)).generate (.seeded 42) .always).nth 5 = .error fault) ∧
    (∃ fault, (⟨.arbitrary (longRange 7 6), fun _ => ⟨[], .pass⟩, none, none⟩ :
      Property Int64).run {} 42 = .error fault) ∧
    ∃ e rs', (sequence [bool.map fun _ => 1, longRange 7 6]).sample (.seeded 42) = (.error e, rs') ∧
      FirstFault (.seeded 42) [bool.map fun _ => 1, longRange 7 6] e rs' := by
  have hdie : (longRange 7 6).Broken := broken_never_masked.1.1 (by decide)
  refine ⟨⟨by decide, hdie⟩, ⟨?_, ?_⟩, ?_, ?_, ?_, ?_⟩
  · exact (broken_never_masked.2.1.1 (.tail bool (.head hdie .nil))).1
  · exact (broken_never_masked.2.1.2 hdie (by simp)).1
  · have hmap := (broken_never_masked.2.2.1 hdie).1 (· + 1)
    have hfilter := (broken_never_masked.2.2.1 hmap).2.1 (· != 0) 0
    exact (broken_never_masked.2.2.1 hfilter).2.2.2 (by decide) (by decide)
  · exact (broken_never_masked.2.2.2.1 hdie).1 (.seeded 42) .always 5
  · exact (broken_never_masked.2.2.2.1 hdie).2 42 rfl (by decide)
  · exact ⟨_, _, rfl, (broken_never_masked.2.2.2.2.1 List.length).1.1 rfl⟩

end Arbitrary

end PropertyTesting
