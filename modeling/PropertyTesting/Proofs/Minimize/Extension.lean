import PropertyTesting.Proofs.Minimize.Limit

/-!
What a larger limit adds to a search. A search forgets neither a value that it
accepted nor one that it tried, so all that it has come to at some stage is
where its outcome begins. Two searches with different limits stand at the same
stage when the smaller limit ends the one of them. There the other looks at the
same children, if it was not over anyway, and then goes on from what the first
one knew at its end.
-/

namespace PropertyTesting

namespace Minimize

variable {τ α : Type} [Branching τ α] [Inspect α]

open Branching Inspect

/-- No value that was accepted or tried is lost from `p` to `q`, and those that
are new came later. -/
structure Progress.Since (p q : Progress α) : Prop where
  accepted : p.accepted <:+ q.accepted
  tried : p.tried <:+ q.tried

/-- The outcome of a search is where that of another one begins. -/
structure Begins (a b : Minimized α) : Prop where
  progression : a.progression <+: b.progression
  tried : a.tried <+: b.tried

namespace Progress

variable {p q : Progress α}

omit [Inspect α] in
theorem Since.refl (p : Progress α) : p.Since p :=
  ⟨List.suffix_rfl, List.suffix_rfl⟩

omit [Inspect α] in
theorem Since.begins (h : p.Since q) (v v' : α) (exhausted exhausted' : Bool) :
    Begins (p.finish v exhausted) (q.finish v' exhausted') where
  progression := List.reverse_prefix.2 h.accepted
  tried := List.reverse_prefix.2 h.tried

omit [Inspect α] in
theorem Since.expand (h : p.Since q) : p.Since q.expand :=
  ⟨h.accepted, h.tried⟩

theorem Since.note (h : p.Since q) (v : α) : p.Since (q.note v) :=
  ⟨h.accepted, h.tried.trans (List.suffix_cons v q.tried)⟩

theorem Since.accept (h : p.Since q) (v : α) (panic : Option String) :
    p.Since (q.accept v panic) :=
  ⟨h.accepted.trans (List.suffix_cons v q.accepted), h.tried⟩

end Progress

/-- No move in a search loses anything. -/
theorem invariant_since (check : α → Verdict) (p : Progress α) :
    Invariant check fun (_ : τ) q => p.Since q where
  expand h := h.expand
  note h _ _ _ := h.note _
  accept h _ _ _ := (h.note _).accept _ _
  sideways h _ _ := h

namespace Stage

variable {check : α → Verdict} {limit limit' : Nat} {g : Stage τ α}

/-- Nothing that is known at a stage is lost in the search from there on. -/
theorem begins_onward (check : α → Verdict) (limit : Nat) {p : Progress α}
    (h : p.Since g.known) (v : α) (exhausted : Bool) :
    Begins (p.finish v exhausted) (g.onward check limit) := by
  obtain ⟨u, q, exhausted', hsearch, hsince, -⟩ :=
    (invariant_since check p).search (limit - g.steps) (limit - g.moves) (t := g.node) h
  rw [onward, hsearch]
  exact hsince.begins v _ exhausted exhausted'

/-- Where one limit lets a search go no further, a larger one adds to its
outcome if it changes it. -/
theorem begins_of_next?_eq_none (hle : limit ≤ limit') (hend : g.next? check limit = none) :
    Begins (g.onward check limit) (g.onward check limit') := by
  by_cases hsteps : limit ≤ g.steps
  · have hkept : g.known.expand.Since g.known := ⟨List.suffix_rfl, List.suffix_rfl⟩
    rw [onward_of_limit_le check hsteps]
    exact begins_onward check limit' hkept _ _
  · have hlt : g.steps < limit := Nat.lt_of_not_le hsteps
    have hlt' : g.steps < limit' := Nat.lt_of_lt_of_le hlt hle
    rcases settle_spec limit g (look check g.known.expand none (row g.node)) with
      hover | ⟨g₁, hon, -⟩
    · -- Both look at the same children, and the first is over with what it learned.
      rw [onward_of_lt hlt rfl, hover, onward_of_lt hlt' rfl]
      rcases settle_spec limit' g (look check g.known.expand none (row g.node)) with
        hover' | ⟨g', hon', hknown, -⟩
      · rw [hover']
        exact (Progress.Since.refl _).begins _ _ _ _
      · rw [hon']
        exact begins_onward check limit' (hknown ▸ .refl _) _ _
    · cases hend.symm.trans (next?_eq_some.2 ⟨hlt, hon⟩)

theorem next?_last (check : α → Verdict) (limit : Nat) (g : Stage τ α) :
    (g.last check limit).next? check limit = none :=
  (last_induction (I := fun _ => True) (fun _ _ _ _ => trivial) trivial).2

/-- The outcome with the larger of two limits begins with that with the smaller
one. -/
theorem begins_of_le (check : α → Verdict) (hle : limit ≤ limit') (g : Stage τ α) :
    Begins (g.onward check limit) (g.onward check limit') := by
  rw [← onward_last (Nat.le_refl limit), ← onward_last hle]
  exact begins_of_next?_eq_none hle (next?_last check limit g)

end Stage

end Minimize

open Minimize in
/-- Raising the limit only makes a search longer: what it accepted and what it
asked the predicate about with the smaller limit, it accepts and asks about
with the larger one, in the same order and before anything else. -/
theorem Tree.minimize_extends {α : Type} [Inspect α] (check : α → Verdict) (t : Tree α)
    {n m : Nat} (hle : n ≤ m) :
    ∃ asked later,
      consult n (noting check) t [] = (t.minimize n check, asked) ∧
      consult m (noting check) t [] = (t.minimize m check, asked ++ later) ∧
      (t.minimize n check).progression <+: (t.minimize m check).progression := by
  obtain ⟨hprogression, later, hlater⟩ :=
    Stage.begins_of_le check hle (Stage.start t)
  change (Minimize.minimize n check t).progression <+: (Minimize.minimize m check t).progression
    at hprogression
  change (Minimize.minimize n check t).tried ++ later = (Minimize.minimize m check t).tried
    at hlater
  refine ⟨(Minimize.minimize n check t).tried, later, ?_, ?_, ?_⟩
  · rw [consult_noting, minimize_eq, List.nil_append]
  · rw [consult_noting, minimize_eq, List.nil_append, hlater]
  · rw [minimize_eq, minimize_eq]
    exact hprogression

open Minimize in
/-- With one sideways move the search does not come to the node that has another
child; with two it does, and makes its first step there. -/
theorem Tree.minimize_extends_held_up :
    let t : Tree Int64 := .node 30 [.node 30 [.node 30 [.leaf 0, .leaf 12]]]
    let check : Int64 → Verdict := fun n => if n < 10 then .pass else .fail none
    (t.minimize 1 check).progression = [30] ∧ (t.minimize 2 check).progression = [30, 12] ∧
      ∃ asked later,
        consult 1 (noting check) t [] = (t.minimize 1 check, asked) ∧
        consult 2 (noting check) t [] = (t.minimize 2 check, asked ++ later) ∧
        (t.minimize 1 check).progression <+: (t.minimize 2 check).progression := by
  intro t check
  refine ⟨?_, ?_, t.minimize_extends check (Nat.le_succ 1)⟩ <;>
    simp [t, check, Tree.minimize_eq, Minimize.minimize, Minimize.search, Tree.row_node,
      Row.ofList, Minimize.look, Branching.value, Minimize.Progress.start,
      Minimize.Progress.finish, Tree.leaf, inspect_int64_injective.eq_iff]

end PropertyTesting
