import PropertyTesting.Proofs.Tree.Reach
import PropertyTesting.Run.Minimize

/-!
The search for a smaller failing value, one child at a time. `look_spec` says
how a look at the children of a node comes out: it passes over children until
one fails, or over all of them. `Invariant.search` is the induction that every
property of a whole search goes through. What four kinds of move keep, the end
of the search has, and there every child was met unless the limit of steps
stopped the search.
-/

namespace PropertyTesting.Minimize

variable {τ α : Type} [Branching τ α] [Inspect α]

open Branching Inspect

namespace Progress

/-- The written form of a value is neither that of the current node nor was it
met before. -/
def Fresh (p : Progress α) (v : α) : Prop :=
  inspect v ≠ p.form ∧ inspect v ∉ p.met

variable (p : Progress α) (v : α) (panic : Option String)

@[simp] theorem form_note : (p.note v).form = p.form := rfl

@[simp] theorem accepted_note : (p.note v).accepted = p.accepted := rfl

@[simp] theorem steps_note : (p.note v).steps = p.steps := rfl

@[simp] theorem mem_met_note {form : String} :
    form ∈ (p.note v).met ↔ form = inspect v ∨ form ∈ p.met := by
  rw [note, Std.HashSet.mem_insert, beq_iff_eq, eq_comm]

@[simp] theorem form_accept : (p.accept v panic).form = inspect v := rfl

@[simp] theorem accepted_accept : (p.accept v panic).accepted = v :: p.accepted := rfl

@[simp] theorem steps_accept : (p.accept v panic).steps = p.steps + 1 := rfl

@[simp] theorem met_accept : (p.accept v panic).met = p.met := rfl

@[simp] theorem form_start : (start v).form = inspect v := rfl

@[simp] theorem accepted_start : (start v).accepted = [v] := rfl

@[simp] theorem steps_start : (start v).steps = 0 := rfl

@[simp] theorem mem_met_start {form : String} : form ∈ (start v).met ↔ form = inspect v := by
  change form ∈ ({inspect v} : Std.HashSet String) ↔ _
  rw [Std.HashSet.singleton_eq_insert, Std.HashSet.mem_insert, beq_iff_eq, eq_comm]
  simp

omit [Inspect α] in
@[simp] theorem form_expand : p.expand.form = p.form := rfl

omit [Inspect α] in
@[simp] theorem accepted_expand : p.expand.accepted = p.accepted := rfl

omit [Inspect α] in
@[simp] theorem steps_expand : p.expand.steps = p.steps := rfl

omit [Inspect α] in
@[simp] theorem met_expand : p.expand.met = p.met := rfl

end Progress

section Look

variable (check : α → Verdict) {p : Progress α} (sideways : Option τ) {t : τ}
  (rest : Unit → Row τ)

theorem look_same (h : inspect (value t) = p.form) :
    look check p sideways (.cons t rest) = look check p (sideways <|> some t) (rest ()) := by
  simp [look, h]

theorem look_known (h : inspect (value t) ≠ p.form) (hm : inspect (value t) ∈ p.met) :
    look check p sideways (.cons t rest) = look check p sideways (rest ()) := by
  simp [look, h, hm]

theorem look_pass (h : p.Fresh (value t)) (hc : check (value t) = .pass) :
    look check p sideways (.cons t rest) = look check (p.note (value t)) sideways (rest ()) := by
  simp [look, h.1, h.2, hc]

theorem look_fail (h : p.Fresh (value t)) {panic : Option String}
    (hc : check (value t) = .fail panic) :
    look check p sideways (.cons t rest) =
      .improved t ((p.note (value t)).accept (value t) panic) := by
  simp [look, h.1, h.2, hc]

end Look

/-- What is known goes from `p` to `q` while the search passes over children: it
keeps one that is written like the current node, leaves out one that was met,
and tries any other, which passes. -/
inductive PassOver (check : α → Verdict) : Progress α → List τ → Progress α → Prop where
  | nil {p : Progress α} : PassOver check p [] p
  | same {p q : Progress α} {t : τ} {ts : List τ} : inspect (value t) = p.form →
      PassOver check p ts q → PassOver check p (t :: ts) q
  | known {p q : Progress α} {t : τ} {ts : List τ} : inspect (value t) ∈ p.met →
      PassOver check p ts q → PassOver check p (t :: ts) q
  | pass {p q : Progress α} {t : τ} {ts : List τ} : p.Fresh (value t) →
      check (value t) = .pass → PassOver check (p.note (value t)) ts q →
      PassOver check p (t :: ts) q

namespace PassOver

variable {check : α → Verdict} {p q : Progress α} {ts : List τ}

/-- What noting a child that passes keeps, passing over children keeps. -/
theorem keeps {I : Progress α → Prop}
    (hI : ∀ r, ∀ t ∈ ts, I r → r.Fresh (value t) → check (value t) = .pass →
      I (r.note (value t)))
    (h : PassOver check p ts q) (hp : I p) : I q := by
  induction h with
  | nil => exact hp
  | same _ _ ih => exact ih (fun r t ht => hI r t (.tail _ ht)) hp
  | known _ _ ih => exact ih (fun r t ht => hI r t (.tail _ ht)) hp
  | pass hf hc _ ih =>
    exact ih (fun r t ht => hI r t (.tail _ ht)) (hI _ _ (.head _) hp hf hc)

theorem form_eq (h : PassOver check p ts q) : q.form = p.form :=
  h.keeps (I := fun r => r.form = p.form) (fun _ _ _ hr _ _ => hr) rfl

theorem steps_eq (h : PassOver check p ts q) : q.steps = p.steps :=
  h.keeps (I := fun r => r.steps = p.steps) (fun _ _ _ hr _ _ => hr) rfl

theorem met_mono (h : PassOver check p ts q) {form : String} (hf : form ∈ p.met) :
    form ∈ q.met :=
  h.keeps (I := fun r => form ∈ r.met) (fun _ _ _ hr _ _ => by simp [hr]) hf

/-- No child is lost: each is written like the current node or was met. -/
theorem covers (h : PassOver check p ts q) :
    ∀ t ∈ ts, inspect (value t) = q.form ∨ inspect (value t) ∈ q.met := by
  induction h with
  | nil => simp
  | same hf h ih => exact List.forall_mem_cons.2 ⟨.inl (h.form_eq ▸ hf), ih⟩
  | known hm h ih => exact List.forall_mem_cons.2 ⟨.inr (h.met_mono hm), ih⟩
  | pass _ _ h ih => exact List.forall_mem_cons.2 ⟨.inr (h.met_mono (by simp)), ih⟩

end PassOver

/-- How a look at children comes out. Either the children before some child are
passed over and that child fails, or all are passed over and the first one that
is written like the current node is kept. -/
theorem look_spec (check : α → Verdict) (p : Progress α) (sideways : Option τ) (ts : Row τ) :
    match look check p sideways ts with
    | .improved u q => ∃ before after r panic, ts.toList = before ++ u :: after ∧
        PassOver check p before r ∧ r.Fresh (value u) ∧ check (value u) = .fail panic ∧
        q = (r.note (value u)).accept (value u) panic
    | .stuck q u => PassOver check p ts.toList q ∧
        u = (sideways <|> ts.toList.find? fun t => inspect (value t) = p.form) := by
  induction ts generalizing p sideways with
  | nil => simp [look, PassOver.nil]
  | cons t rest ih =>
    have ih := ih ()
    -- A child looks like the node, or was met, or is tried.
    by_cases hf : inspect (value t) = p.form
    · have ih := ih p (sideways <|> some t)
      rw [look_same check sideways rest hf]
      cases hl : look check p (sideways <|> some t) (rest ()) with
      | improved u q =>
        simp only [hl] at ih
        obtain ⟨before, after, r, panic, hts, hpass, hr⟩ := ih
        exact ⟨t :: before, after, r, panic, by simp [hts], .same hf hpass, hr⟩
      | stuck q u =>
        simp only [hl] at ih
        refine ⟨by simpa using .same hf ih.1, ?_⟩
        rw [ih.2]
        cases sideways <;> simp [hf]
    · by_cases hm : inspect (value t) ∈ p.met
      · have ih := ih p sideways
        rw [look_known check sideways rest hf hm]
        cases hl : look check p sideways (rest ()) with
        | improved u q =>
          simp only [hl] at ih
          obtain ⟨before, after, r, panic, hts, hpass, hr⟩ := ih
          exact ⟨t :: before, after, r, panic, by simp [hts], .known hm hpass, hr⟩
        | stuck q u =>
          simp only [hl] at ih
          exact ⟨by simpa using .known hm ih.1, by simpa [hf] using ih.2⟩
      · cases hc : check (value t) with
        | fail panic =>
          rw [look_fail check sideways rest ⟨hf, hm⟩ hc]
          exact ⟨[], (rest ()).toList, p, panic, by simp, .nil, ⟨hf, hm⟩, hc, rfl⟩
        | pass =>
          have ih := ih (p.note (value t)) sideways
          rw [look_pass check sideways rest ⟨hf, hm⟩ hc]
          cases hl : look check (p.note (value t)) sideways (rest ()) with
          | improved u q =>
            simp only [hl] at ih
            obtain ⟨before, after, r, panic, hts, hpass, hr⟩ := ih
            exact ⟨t :: before, after, r, panic, by simp [hts], .pass ⟨hf, hm⟩ hc hpass, hr⟩
          | stuck q u =>
            simp only [hl] at ih
            refine ⟨by simpa using .pass ⟨hf, hm⟩ hc ih.1, ?_⟩
            rw [ih.2, Row.toList_cons, List.find?_cons_of_neg (by simpa using hf)]
            rfl

theorem of_look_improved {check : α → Verdict} {p q : Progress α} {sideways : Option τ}
    {ts : Row τ} {u : τ} (h : look check p sideways ts = .improved u q) :
    ∃ before after r panic, ts.toList = before ++ u :: after ∧ PassOver check p before r ∧
      r.Fresh (value u) ∧ check (value u) = .fail panic ∧
      q = (r.note (value u)).accept (value u) panic := by
  have := look_spec check p sideways ts
  rwa [h] at this

theorem of_look_stuck {check : α → Verdict} {p q : Progress α} {ts : Row τ} {u : Option τ}
    (h : look check p none ts = .stuck q u) :
    PassOver check p ts.toList q ∧ u = ts.toList.find? fun t => inspect (value t) = p.form := by
  have := look_spec check p none ts
  rw [h] at this
  simpa using this

/-- What the four kinds of move in a search keep. The children of another node
are asked for; a child is tried and passes; a child is tried and fails, and the
search goes on there; or it moves sideways into a child that is written like
the current node. -/
structure Invariant (check : α → Verdict) (I : τ → Progress α → Prop) : Prop where
  expand : ∀ {t p}, I t p → I t p.expand
  note : ∀ {t p c}, I t p → c ∈ children t → p.Fresh (value c) →
    check (value c) = .pass → I t (p.note (value c))
  accept : ∀ {t p c panic}, I t p → c ∈ children t → p.Fresh (value c) →
    check (value c) = .fail panic → I c ((p.note (value c)).accept (value c) panic)
  sideways : ∀ {t p c}, I t p → c ∈ children t → inspect (value c) = p.form → I c p

namespace Invariant

variable {check : α → Verdict} {I : τ → Progress α → Prop}

theorem passOver (hI : Invariant check I) {t : τ} {p q : Progress α} {ts : List τ}
    (hts : ∀ c ∈ ts, c ∈ children t) (h : PassOver check p ts q) (hp : I t p) : I t q :=
  h.keeps (fun _ c hc hr hf hpass => hI.note hr (hts c hc) hf hpass) hp

/-- A search with an invariant ends where the invariant holds. Unless the limit
of steps ended it, no child of the node where it ends is left unmet. -/
theorem search (hI : Invariant check I) (steps moves : Nat) {t : τ} {p : Progress α}
    (h : I t p) :
    ∃ u q exhausted, Minimize.search check steps moves t p = q.finish (value u) exhausted ∧
      I u q ∧ (exhausted = false →
        ∀ c ∈ children u, inspect (value c) = q.form ∨ inspect (value c) ∈ q.met) := by
  -- The cases are the ends of `search` and its two recursive calls.
  fun_induction Minimize.search check steps moves t p with
  | case1 moves t p below =>
    refine ⟨t, p.expand, !below.isEmpty, rfl, hI.expand h, fun he => ?_⟩
    have hnone : children t = [] := by
      rw [← toList_row, ← List.isEmpty_iff, Row.isEmpty_toList]
      simpa using he
    simp [hnone]
  | case2 moves t p below p' steps u q hlook ih =>
    obtain ⟨before, after, r, panic, hts, hpass, hfresh, hfail, rfl⟩ := of_look_improved hlook
    have hmem : ∀ c ∈ before ++ u :: after, c ∈ children t := fun c hc =>
      toList_row t ▸ hts ▸ hc
    have hr : I t r :=
      hI.passOver (fun c hc => hmem c (List.mem_append_left _ hc)) hpass (hI.expand h)
    exact ih (hI.accept hr (hmem u (by simp)) hfresh hfail)
  | case3 moves t p below p' steps q hlook =>
    obtain ⟨hpass, -⟩ := of_look_stuck hlook
    exact ⟨t, q, false, rfl, hI.passOver (fun _ hc => hc) hpass (hI.expand h),
      fun _ => hpass.covers⟩
  | case4 t p below p' steps q u hlook =>
    obtain ⟨hpass, -⟩ := of_look_stuck hlook
    exact ⟨t, q, false, rfl, hI.passOver (fun _ hc => hc) hpass (hI.expand h),
      fun _ => hpass.covers⟩
  | case5 t p below p' steps q u hlook moves ih =>
    obtain ⟨hpass, hu⟩ := of_look_stuck hlook
    have hform : inspect (value u) = q.form := by
      simpa [hpass.form_eq] using List.find?_some hu.symm
    exact ih (hI.sideways (hI.passOver (fun _ hc => hc) hpass (hI.expand h))
      (List.mem_of_find?_eq_some hu.symm) hform)

end Invariant

/-- A search is complete if the limit of steps is above a measure that is smaller
at every child. -/
theorem search_complete {check : α → Verdict} {I : τ → Prop}
    (hI : ∀ t, I t → ∀ c ∈ children t, I c) {μ : τ → Nat}
    (hμ : ∀ t, I t → ∀ c ∈ children t, μ c < μ t) (steps moves : Nat) {t : τ}
    {p : Progress α} (ht : I t) (hlt : μ t < steps) :
    (search check steps moves t p).exhausted = false := by
  fun_induction search check steps moves t p with
  | case1 =>
    -- Without a step left the measure would be below zero.
    omega
  | case2 moves t p below p' steps u q hlook ih =>
    obtain ⟨before, after, -, -, hts, -⟩ := of_look_improved hlook
    have hu : u ∈ children t := by
      rw [← toList_row, hts]
      simp
    have := hμ t ht u hu
    exact ih (hI t ht u hu) (by omega)
  | case3 => rfl
  | case4 => rfl
  | case5 t p below p' steps q u hlook moves ih =>
    obtain ⟨-, hfind⟩ := of_look_stuck hlook
    have hu : u ∈ children t := List.mem_of_find?_eq_some hfind.symm
    have := hμ t ht u hu
    exact ih (hI t ht u hu) (by omega)

end PropertyTesting.Minimize
