import PropertyTesting.Proofs.Minimize.Consult

/-!
How long a search lasts. The loop of turns has no bound of its own, and the
tree below a node may go on for ever; yet each turn that is not the last takes
up an accepted step or a sideways move, and of both there are only so many. A
turn asks for the children of one node, and of no other.
-/

namespace PropertyTesting

namespace Minimize

variable {σ τ α : Type} [Branching τ α] [Inspect α]

open Branching Inspect

/-- A search is over after so many turns. -/
inductive EndsAfter (limit : Nat) (ask : α → StateM σ Verdict) :
    Nat → Stage τ α → σ → Minimized α → σ → Prop where
  | last {g : Stage τ α} {s s' : σ} {m : Minimized α} :
      g.turn limit ask s = (.inl m, s') → EndsAfter limit ask 1 g s m s'
  | next {n : Nat} {g g' : Stage τ α} {s s' s'' : σ} {m : Minimized α} :
      g.turn limit ask s = (.inr g', s') → EndsAfter limit ask n g' s' m s'' →
      EndsAfter limit ask (n + 1) g s m s''

theorem PassOver.expansions_eq {check : α → Verdict} {p q : Progress α} {ts : List τ}
    (h : PassOver check p ts q) : q.expansions = p.expansions :=
  h.keeps (I := fun r => r.expansions = p.expansions) (fun _ _ _ hr _ _ => hr) rfl

/-- To look at the children of a node asks for those of no other. -/
theorem expansions_look (check : α → Verdict) (p : Progress α) (sideways : Option τ)
    (ts : Row τ) : (look check p sideways ts).known.expansions = p.expansions := by
  have hspec := look_spec check p sideways ts
  cases hlook : look check p sideways ts with
  | improved u q =>
    rw [hlook] at hspec
    obtain ⟨before, after, r, panic, -, hpass, -, -, rfl⟩ := hspec
    exact hpass.expansions_eq
  | stuck q u =>
    rw [hlook] at hspec
    exact hspec.1.expansions_eq

theorem expansions_lookWith {ask : α → StateM σ Verdict} {p : Progress α} {ts : Row τ}
    {s s' : σ} {found : Look τ α} (h : lookWith ask p none ts s = (found, s')) :
    found.known.expansions = p.expansions := by
  obtain ⟨found', calls, _, hlook, hlearned, hsame⟩ := lookWith_spec ask p none ts s
  obtain rfl : found' = found := congrArg Prod.fst (hlook.symm.trans h)
  rw [← hsame _ (agrees_echo hlearned.once), expansions_look]

namespace Stage

/-- Every turn, and so the last one, asks for the children of one node. -/
theorem expansions_turn {limit : Nat} {ask : α → StateM σ Verdict} {g : Stage τ α} {s s' : σ}
    {result : Minimized α ⊕ Stage τ α} (h : g.turn limit ask s = (result, s')) :
    result.elim Minimized.expansions (fun g' => g'.known.expansions) =
      g.known.expansions + 1 := by
  by_cases hsteps : limit ≤ g.steps
  · rw [turn_of_limit_le ask hsteps] at h
    obtain ⟨rfl, -⟩ := Prod.mk.inj h
    rfl
  · obtain ⟨found, s₁, hlook⟩ : ∃ found s₁,
        lookWith ask g.known.expand none (row g.node) s = (found, s₁) := ⟨_, _, rfl⟩
    rw [turn_of_lt (Nat.lt_of_not_le hsteps) hlook] at h
    obtain ⟨rfl, -⟩ := Prod.mk.inj h
    have hexp : found.known.expansions = g.known.expansions + 1 := expansions_lookWith hlook
    rcases settle_spec limit g found with hsettle | ⟨g', hsettle, hknown, -⟩
    · rw [hsettle]
      exact hexp
    · rw [hsettle, Sum.elim_inr, hknown]
      exact hexp

/-- A search is over after no more turns than there are moves left, and one. -/
theorem search_ends (limit : Nat) (ask : α → StateM σ Verdict) (g : Stage τ α) (s : σ) :
    ∃ n m s', EndsAfter limit ask n g s m s' ∧ g.search limit ask s = (m, s') ∧
      n ≤ g.left limit + 1 ∧ m.expansions = g.known.expansions + n := by
  induction hn : g.left limit using Nat.strongRecOn generalizing g s with
  | _ k ih =>
    obtain ⟨result, s', hturn⟩ : ∃ result s', g.turn limit ask s = (result, s') := ⟨_, _, rfl⟩
    have hexp := expansions_turn hturn
    cases result with
    | inl m => exact ⟨1, m, s', .last hturn, search_of_turn_inl hturn, by omega, hexp⟩
    | inr g' =>
      have hleft := hn ▸ left_lt_of_turn hturn
      obtain ⟨n, m, s'', hends, hsearch, hle, hm⟩ := ih _ hleft g' s' rfl
      refine ⟨n + 1, m, s'', .next hturn hends, ?_, by omega, ?_⟩
      · rw [search_of_turn_inr hturn, hsearch]
      · rw [hm, show g'.known.expansions = g.known.expansions + 1 from hexp]
        omega

end Stage

/-- A search accepts no more steps than it was given. -/
theorem steps_search_le (check : α → Verdict) (steps moves : Nat) (t : τ) (p : Progress α) :
    (search check steps moves t p).steps ≤ p.steps + steps := by
  fun_induction search check steps moves t p with
  | case1 => exact Nat.le_add_right _ _
  | case2 moves t p below p' steps u q hlook ih =>
    obtain ⟨before, after, r, panic, -, hpass, -, -, rfl⟩ := of_look_improved hlook
    rw [Progress.steps_accept, Progress.steps_note, hpass.steps_eq, Progress.steps_expand] at ih
    omega
  | case3 moves t p below p' steps q hlook =>
    obtain ⟨hpass, -⟩ := of_look_stuck hlook
    exact Nat.le_trans (Nat.le_of_eq hpass.steps_eq) (Nat.le_add_right _ _)
  | case4 t p below p' steps q u hlook =>
    obtain ⟨hpass, -⟩ := of_look_stuck hlook
    exact Nat.le_trans (Nat.le_of_eq hpass.steps_eq) (Nat.le_add_right _ _)
  | case5 t p below p' steps q u hlook moves ih =>
    obtain ⟨hpass, -⟩ := of_look_stuck hlook
    rwa [hpass.steps_eq] at ih

theorem steps_minimize_le (limit : Nat) (check : α → Verdict) (t : τ) :
    (minimize limit check t).steps ≤ limit := by
  have h := steps_search_le check limit limit t (Progress.start (value t))
  rwa [Progress.steps_start, Nat.zero_add] at h

end Minimize

open Minimize in
/-- Minimizing ends on every tree and with every predicate, whatever state that
keeps. With a limit of `n` it takes at most `n` steps, and asks for the children
of at most `2 * n + 1` nodes. -/
theorem Tree.minimize_ends {σ α : Type} [Inspect α] (limit : Nat) (ask : α → StateM σ Verdict)
    (t : Tree α) (s : σ) :
    ∃ n m s', EndsAfter limit ask n (Stage.start t) s m s' ∧ n ≤ 2 * limit + 1 ∧
      m.expansions = n ∧ m.steps ≤ limit ∧
      ∀ check, (∀ v s, (ask v s).1 = check v) → t.minimize limit check = m := by
  obtain ⟨n, m, s', hends, hsearch, hle, hexp⟩ := Stage.search_ends limit ask (Stage.start t) s
  have hconsult : (consult limit ask t s).1 = m := congrArg Prod.fst hsearch
  refine ⟨n, m, s', hends, ?_, ?_, ?_, ?_⟩
  · have hleft : (Stage.start t).left limit = limit + limit := rfl
    omega
  · have hstart : (Stage.start t).known.expansions = 0 := rfl
    omega
  · obtain ⟨check, hcheck⟩ := exists_minimize_eq limit ask t s
    rw [← hconsult, hcheck]
    exact steps_minimize_le limit check t
  · intro check hcheck
    rw [Tree.minimize_eq, ← consult_fst_eq hcheck t s, hconsult]

end PropertyTesting
