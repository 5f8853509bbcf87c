import PropertyTesting.Proofs.Minimize.Consult

/-!
The record of a search: what was tried, and what of it was accepted. No two of
the values that a predicate is asked about are written alike, and none is
written like the root. What a search accepts, the root apart, it has tried, and
it accepts in the order in which it tries.
-/

namespace PropertyTesting

namespace Minimize

variable {σ τ α : Type} [Branching τ α] [Inspect α]

open Branching Inspect

/-- All that was accepted after the root was tried, in the same order. -/
def AcceptedFromTried (root : τ) (p : Progress α) : Prop :=
  ∃ vs, p.accepted = vs ++ [value root] ∧ vs.Sublist p.tried

namespace AcceptedFromTried

variable {root : τ} {p : Progress α}

theorem start (root : τ) : AcceptedFromTried root (Progress.start (value root)) :=
  ⟨[], rfl, .slnil⟩

theorem note (h : AcceptedFromTried root p) (v : α) : AcceptedFromTried root (p.note v) := by
  obtain ⟨vs, hvs, hsub⟩ := h
  exact ⟨vs, hvs, hsub.cons v⟩

/-- The value that is accepted is the one that was tried last. -/
theorem accept (h : AcceptedFromTried root p) (v : α) (panic : Option String) :
    AcceptedFromTried root ((p.note v).accept v panic) := by
  obtain ⟨vs, hvs, hsub⟩ := h
  refine ⟨v :: vs, ?_, hsub.cons_cons v⟩
  rw [Progress.accepted_accept, Progress.accepted_note, hvs]
  rfl

theorem invariant (check : α → Verdict) (root : τ) :
    Invariant check (fun _ : τ => AcceptedFromTried root) where
  expand h := h
  note h _ _ _ := h.note _
  accept h _ _ _ := h.accept _ _
  sideways h _ _ := h

end AcceptedFromTried

/-- The progression of a search is its root and then, for each step, some of
what was tried, in the same order. -/
theorem progression_minimize (limit : Nat) (check : α → Verdict) (root : τ) :
    ∃ vs, (minimize limit check root).progression = value root :: vs ∧
      (minimize limit check root).steps = vs.length ∧
      vs.Sublist (minimize limit check root).tried := by
  obtain ⟨u, q, exhausted, hend, ⟨vs, hvs, hsub⟩, -⟩ :=
    (AcceptedFromTried.invariant check root).search limit limit (AcceptedFromTried.start root)
  have hsteps : vs.length = q.steps := by
    have hlength := q.length_accepted
    rw [hvs, List.length_append] at hlength
    exact Nat.succ.inj hlength
  refine ⟨vs.reverse, ?_⟩
  rw [minimize, hend, Progress.finish, hvs, List.reverse_append, List.length_reverse, hsteps]
  exact ⟨rfl, rfl, List.reverse_sublist.2 hsub⟩

/-- No two of the values that are tried are written alike, and none is written
like the root. -/
theorem forms_tried_nodup (limit : Nat) (check : α → Verdict) (root : τ) :
    ((value root :: (minimize limit check root).tried).map inspect).Nodup := by
  obtain ⟨calls, m, asked, hconsult, -, htried, honce, -⟩ :=
    consult_spec limit (noting check) root []
  obtain rfl : minimize limit check root = m :=
    congrArg Prod.fst ((consult_noting limit check root []).symm.trans hconsult)
  rw [htried, List.map_cons, List.map_map]
  exact honce

end Minimize

open Minimize in
/-- A predicate, whatever state it keeps, is asked at most once about values
that are written alike, and never about one that is written like the root. All
that is accepted after the root is among the values that it was asked about, in
the same order. -/
theorem Tree.minimize_asks_once {σ α : Type} [Inspect α] (limit : Nat)
    (ask : α → StateM σ Verdict) (t : Tree α) (s : σ) :
    ∃ calls m s', consult limit ask t s = (m, s') ∧ Asked ask s calls s' ∧
      m.tried = calls.map Prod.fst ∧ ((t.value :: m.tried).map Inspect.inspect).Nodup ∧
      m.progression.head? = some t.value ∧ m.progression.tail.Sublist m.tried ∧
      ∀ check, (∀ v s, (ask v s).1 = check v) → t.minimize limit check = m := by
  obtain ⟨calls, m, s', hconsult, hasked, htried, honce, hsame⟩ := consult_spec limit ask t s
  have hminimize := hsame _ (agrees_echo honce.of_cons)
  obtain ⟨vs, hvs, -, hsub⟩ := progression_minimize limit (echo calls) t
  rw [hminimize] at hvs hsub
  refine ⟨calls, m, s', hconsult, hasked, htried, ?_, ?_, ?_, ?_⟩
  · rw [← hminimize]
    exact forms_tried_nodup limit (echo calls) t
  · rw [hvs]
    rfl
  · rw [hvs]
    exact hsub
  · intro check hcheck
    rw [Tree.minimize_eq, hsame check (hasked.agrees hcheck)]

end PropertyTesting
