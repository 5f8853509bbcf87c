import PropertyTesting.Generate.Generator
import PropertyTesting.Generate.Scalar
import PropertyTesting.Proofs.Generate.Attempt
import PropertyTesting.Proofs.Tree.Filter

/-!
Samples of a filtered arbitrary. The filter draws samples of the arbitrary one
after the other. Those that it rejects leave no trace but their draws
(`sampleAccepted_of_rejected`), and the first that is not rejected decides: it
is accepted, or it is a fault. If there is none within the limit, the filter
gives up. `Decided` says so of the samples alone, and `sample_filter_iff` that
this is what the filter does.
-/

namespace PropertyTesting.Arbitrary

variable {α : Type} {a : Arbitrary α} {p : α → Bool} {i k : Nat} {rs rs' : RandomSource}
  {result : Except Fault (Sample α)}

/-- The source after so many fresh samples, whatever came of them. -/
def sourceAfter (a : Arbitrary α) : Nat → RandomSource → RandomSource
  | 0, rs => rs
  | n + 1, rs => sourceAfter a n (a.sample rs).2

theorem samples_succ (a : Arbitrary α) (n : Nat) (rs : RandomSource) :
    a.samples (n + 1) rs = (a.sample rs).1 :: a.samples n (a.sample rs).2 := rfl

/-- Every element of a list of samples is drawn where the samples before it left
the source. -/
theorem getElem?_samples (a : Arbitrary α) (n i : Nat) (rs : RandomSource) :
    (a.samples n rs)[i]? = if i < n then some (a.sample (a.sourceAfter i rs)).1 else none := by
  induction n generalizing i rs with
  | zero => rfl
  | succ n ih =>
    rw [samples_succ]
    cases i with
    | zero => rfl
    | succ i => simp [ih, sourceAfter]

theorem getElem?_samples_eq_some :
    (a.samples k rs)[i]? = some result ↔ i < k ∧ (a.sample (a.sourceAfter i rs)).1 = result := by
  rw [getElem?_samples]
  split <;> simp [*]

theorem sourceAfter_succ (a : Arbitrary α) (n : Nat) (rs : RandomSource) :
    a.sourceAfter (n + 1) rs = (a.sample (a.sourceAfter n rs)).2 := by
  induction n generalizing rs with
  | zero => rfl
  | succ n ih => exact ih (a.sample rs).2

/-- There is a sample, and the filter does not accept its root. -/
def Rejected (p : α → Bool) (r : Except Fault (Sample α)) : Prop :=
  ∃ s, r = .ok s ∧ p s.shrinks.value = false

section Step

variable (limit n : Nat)

theorem sampleAccepted_of_ok {s t : Sample α} (h : (a.sample rs).1 = .ok s)
    (ht : s.shrinks.filter p = some t.shrinks) :
    a.sampleAccepted p limit (n + 1) rs = (.ok t, (a.sample rs).2) := by
  rw [sampleAccepted, Attempt.bind_of_ok h]
  simp only [ht, Sample.ofTree_shrinks]
  rfl

theorem sampleAccepted_of_error {e : Fault} (h : (a.sample rs).1 = .error e) :
    a.sampleAccepted p limit (n + 1) rs = (.error e, (a.sample rs).2) := by
  rw [sampleAccepted, Attempt.bind_of_error h]

theorem sampleAccepted_of_rejected_first (h : Rejected p (a.sample rs).1) :
    a.sampleAccepted p limit (n + 1) rs = a.sampleAccepted p limit n (a.sample rs).2 := by
  obtain ⟨s, hs, hp⟩ := h
  rw [sampleAccepted, Attempt.bind_of_ok hs]
  simp only [Tree.filter_eq_none.2 hp]

/-- Samples that are rejected cost their draws and nothing else. -/
theorem sampleAccepted_of_rejected {n : Nat} (hi : i ≤ n)
    (h : ∀ r ∈ a.samples i rs, Rejected p r) :
    a.sampleAccepted p limit n rs = a.sampleAccepted p limit (n - i) (a.sourceAfter i rs) := by
  induction i generalizing n rs with
  | zero => rfl
  | succ i ih =>
    rw [samples_succ, List.forall_mem_cons] at h
    cases n with
    | zero => exact absurd hi (Nat.not_succ_le_zero i)
    | succ n =>
      rw [sampleAccepted_of_rejected_first limit n h.1, ih (Nat.le_of_succ_le_succ hi) h.2,
        Nat.add_sub_add_right, sourceAfter]

end Step

/-- Of so many samples one is the first that is not rejected, unless all are. -/
theorem all_rejected_or_first (a : Arbitrary α) (p : α → Bool) (n : Nat) (rs : RandomSource) :
    (∀ r ∈ a.samples n rs, Rejected p r) ∨ ∃ i < n, (∀ r ∈ a.samples i rs, Rejected p r) ∧
      ¬Rejected p (a.sample (a.sourceAfter i rs)).1 := by
  induction n generalizing rs with
  | zero => exact .inl (by simp [samples])
  | succ n ih =>
    by_cases hfirst : Rejected p (a.sample rs).1
    · rcases ih (a.sample rs).2 with hall | ⟨i, hi, hbefore, hnot⟩
      · exact .inl (List.forall_mem_cons.2 ⟨hfirst, hall⟩)
      · exact .inr ⟨i + 1, Nat.succ_lt_succ hi, List.forall_mem_cons.2 ⟨hfirst, hbefore⟩, hnot⟩
    · exact .inr ⟨0, Nat.succ_pos n, by simp [samples], hfirst⟩

/-- What comes of a draw with a filter and of the source, told from the samples
of the arbitrary in the order in which they are drawn. -/
inductive Decided (a : Arbitrary α) (p : α → Bool) (k : Nat) (rs : RandomSource) :
    Except Fault (Sample α) → RandomSource → Prop where
  /-- After samples that are rejected there is one with an accepted root, and
  the filter takes what it leaves of its tree. -/
  | accepted {i : Nat} {s t : Sample α} : (a.samples k rs)[i]? = some (.ok s) →
      (∀ r ∈ a.samples i rs, Rejected p r) → s.shrinks.filter p = some t.shrinks →
      Decided a p k rs (.ok t) (a.sourceAfter (i + 1) rs)
  /-- After samples that are rejected there is a fault. -/
  | fault {i : Nat} {e : Fault} : (a.samples k rs)[i]? = some (.error e) →
      (∀ r ∈ a.samples i rs, Rejected p r) →
      Decided a p k rs (.error e) (a.sourceAfter (i + 1) rs)
  /-- All the samples that may be drawn are rejected. -/
  | exhausted : (∀ r ∈ a.samples k rs, Rejected p r) →
      Decided a p k rs (.error (.filterExhausted k)) (a.sourceAfter k rs)

theorem Decided.sample_filter (h : Decided a p k rs result rs') :
    (a.filter p k).sample rs = (result, rs') := by
  have hdraw : (a.filter p k).sample = a.sampleAccepted p k k := rfl
  rw [hdraw]
  cases h with
  | accepted hs hbefore ht =>
    obtain ⟨hi, hs⟩ := getElem?_samples_eq_some.1 hs
    rw [sampleAccepted_of_rejected k (Nat.le_of_lt hi) hbefore, ← Nat.sub_one_add_one_eq_of_pos
      (Nat.sub_pos_of_lt hi), sampleAccepted_of_ok k _ hs ht, sourceAfter_succ]
  | fault he hbefore =>
    obtain ⟨hi, he⟩ := getElem?_samples_eq_some.1 he
    rw [sampleAccepted_of_rejected k (Nat.le_of_lt hi) hbefore, ← Nat.sub_one_add_one_eq_of_pos
      (Nat.sub_pos_of_lt hi), sampleAccepted_of_error k _ he, sourceAfter_succ]
  | exhausted hall =>
    rw [sampleAccepted_of_rejected k (Nat.le_refl k) hall, Nat.sub_self]
    rfl

theorem exists_decided (a : Arbitrary α) (p : α → Bool) (k : Nat) (rs : RandomSource) :
    ∃ result rs', Decided a p k rs result rs' := by
  rcases all_rejected_or_first a p k rs with hall | ⟨i, hi, hbefore, hnot⟩
  · exact ⟨_, _, .exhausted hall⟩
  · cases hr : (a.sample (a.sourceAfter i rs)).1 with
    | error e => exact ⟨_, _, .fault (getElem?_samples_eq_some.2 ⟨hi, hr⟩) hbefore⟩
    | ok s =>
      have hroot : p s.shrinks.value := by
        by_contra hp
        exact hnot ⟨s, hr, by simpa using hp⟩
      exact ⟨_, _, .accepted (t := .ofTree (s.shrinks.prune p))
        (getElem?_samples_eq_some.2 ⟨hi, hr⟩) hbefore (Tree.filter_eq_some.2 ⟨hroot, rfl⟩)⟩

/-- A draw with a filter comes out as the samples decide. -/
theorem sample_filter_iff :
    (a.filter p k).sample rs = (result, rs') ↔ Decided a p k rs result rs' := by
  constructor
  · intro h
    obtain ⟨result', rs₁, hdecided⟩ := exists_decided a p k rs
    obtain ⟨rfl, rfl⟩ := Prod.mk.inj (h.symm.trans hdecided.sample_filter)
    exact hdecided
  · exact Decided.sample_filter

/-- A draw with a filter gives what the filter leaves of the first sample whose
root it accepts, or the fault that comes before any such sample, or it is
exhausted after as many samples as it may draw; and it leaves the source where
the last of these samples left it. What it gives within a limit it also gives
within a larger one. -/
theorem filter_first_accepted (a : Arbitrary α) (p : α → Bool) (k : Nat) (rs : RandomSource) :
    (∀ result rs', (a.filter p k).sample rs = (result, rs') ↔ Decided a p k rs result rs') ∧
    ∀ t rs' k', k ≤ k' → (a.filter p k).sample rs = (.ok t, rs') →
      (a.filter p k').sample rs = (.ok t, rs') := by
  refine ⟨fun _ _ => sample_filter_iff, fun t rs' k' hk h => ?_⟩
  cases sample_filter_iff.1 h with
  | accepted hs hbefore ht =>
    obtain ⟨hi, hs⟩ := getElem?_samples_eq_some.1 hs
    have hs' := getElem?_samples_eq_some.2 ⟨Nat.lt_of_lt_of_le hi hk, hs⟩
    exact (Decided.accepted hs' hbefore ht).sample_filter

/-- A coin shows tails and then heads: two tosses are enough, and five are no
better. A filter that gives up after the first toss is a fault to a filter
around it. -/
theorem filter_first_accepted_coin :
    (∃ t rs', (bool.filter id 2).sample (.seeded 7) = (.ok t, rs') ∧
      Decided bool id 2 (.seeded 7) (.ok t) rs' ∧
      (bool.filter id 5).sample (.seeded 7) = (.ok t, rs')) ∧
    ∃ rs', Decided (bool.filter id 1) id 5 (.seeded 7) (.error (.filterExhausted 1)) rs' := by
  obtain ⟨t, rs', ht⟩ : ∃ t rs', (bool.filter id 2).sample (.seeded 7) = (.ok t, rs') :=
    ⟨_, _, rfl⟩
  have h := filter_first_accepted bool id 2 (.seeded 7)
  exact ⟨⟨t, rs', ht, (h.1 _ _).1 ht, h.2 t rs' 5 (by decide) ht⟩,
    _, ((filter_first_accepted (bool.filter id 1) id 5 (.seeded 7)).1 _ _).1 rfl⟩

end PropertyTesting.Arbitrary
