import PropertyTesting.Proofs.Minimize.Consult
import PropertyTesting.Proofs.Minimize.Soundness

/-!
Searches with different limits. Where a search turns next does not depend on its
limit, only whether it may go on does; so a search with a larger limit first
passes through all that a search with a smaller one passes through, and goes on
from `Stage.last`, where that one ends. It gets no further if the smaller limit
was not what ended the search. Both accepted steps and sideways moves are
limited, but of the two only the limit of steps is reported.
-/

namespace PropertyTesting

namespace Minimize

variable {τ α : Type} [Branching τ α] [Inspect α]

open Branching Inspect

namespace Stage

/-- The stage after a turn with a predicate that has no state, if the search goes
on. -/
def next? (check : α → Verdict) (limit : Nat) (g : Stage τ α) : Option (Stage τ α) :=
  if limit ≤ g.steps then none
  else (g.settle limit (look check g.known.expand none (row g.node))).getRight?

variable {check : α → Verdict} {limit : Nat} {g g' : Stage τ α}

theorem next?_eq_some : g.next? check limit = some g' ↔
    g.steps < limit ∧ g.settle limit (look check g.known.expand none (row g.node)) = .inr g' := by
  rw [next?]
  split
  · simp
    omega
  · rw [Sum.getRight?_eq_some_iff]
    exact ⟨fun h => ⟨by omega, h⟩, And.right⟩

theorem left_lt_of_next? (h : g.next? check limit = some g') : g'.left limit < g.left limit := by
  obtain ⟨hsteps, hsettle⟩ := next?_eq_some.1 h
  exact left_lt_of_settle hsteps (steps_look check g.known.expand none (row g.node)) hsettle

/-- The stage at which a search takes its last turn. -/
def last (check : α → Verdict) (limit : Nat) (g : Stage τ α) : Stage τ α :=
  match _h : g.next? check limit with
  | none => g
  | some g' => last check limit g'
termination_by g.left limit
decreasing_by exact left_lt_of_next? _h

theorem last_of_none (h : g.next? check limit = none) : g.last check limit = g := by
  rw [last]
  split
  · rfl
  · rename_i heq
    cases h.symm.trans heq

theorem last_of_some (h : g.next? check limit = some g') :
    g.last check limit = g'.last check limit := by
  rw [last]
  split
  · rename_i heq
    cases h.symm.trans heq
  · rename_i heq
    rw [Option.some.inj (h.symm.trans heq)]

/-- What holds of the stage where a search begins, and with every stage of the
next, holds of the stage where it ends; and there it goes no further. -/
theorem last_induction {I : Stage τ α → Prop}
    (hI : ∀ g g', g.next? check limit = some g' → I g → I g') (hg : I g) :
    I (g.last check limit) ∧ (g.last check limit).next? check limit = none := by
  induction hn : g.left limit using Nat.strongRecOn generalizing g with
  | _ n ih =>
    cases h : g.next? check limit with
    | none =>
      rw [last_of_none h]
      exact ⟨hg, h⟩
    | some g' =>
      rw [last_of_some h]
      exact ih _ (hn ▸ left_lt_of_next? h) (hI g g' h hg) rfl

/-- With a larger limit a search does not turn elsewhere. -/
theorem next?_mono {limit' : Nat} (hle : limit ≤ limit') (h : g.next? check limit = some g') :
    g.next? check limit' = some g' := by
  obtain ⟨hsteps, hsettle⟩ := next?_eq_some.1 h
  refine next?_eq_some.2 ⟨by omega, ?_⟩
  revert hsettle
  cases look check g.known.expand none (row g.node) with
  | improved t p => exact id
  | stuck p sideways =>
    cases sideways with
    | none => exact id
    | some t =>
      simp only [settle]
      split
      · rw [if_pos (by omega)]
        exact id
      · intro h
        cases h

theorem onward_of_next? (h : g.next? check limit = some g') :
    g.onward check limit = g'.onward check limit := by
  obtain ⟨hsteps, hsettle⟩ := next?_eq_some.1 h
  rw [onward_of_lt hsteps rfl, hsettle]

/-- A search comes out as it does from the stage on where a search with a smaller
limit ends. -/
theorem onward_last {limit' : Nat} (hle : limit ≤ limit') :
    (g.last check limit).onward check limit' = g.onward check limit' := by
  refine (last_induction (I := fun s => s.onward check limit' = g.onward check limit') ?_ rfl).1
  intro s s' hnext hs
  rw [← hs, onward_of_next? (next?_mono hle hnext)]

/-- The form that a search goes by is that of the node it turned to. -/
theorem form_of_next? (h : g.next? check limit = some g') :
    inspect (value g'.node) = g'.known.form := by
  obtain ⟨-, hsettle⟩ := next?_eq_some.1 h
  cases hlook : look check g.known.expand none (row g.node) with
  | improved t p =>
    rw [hlook] at hsettle
    obtain rfl := Sum.inr.inj hsettle
    obtain ⟨-, -, r, panic, -, -, -, -, rfl⟩ := of_look_improved hlook
    rfl
  | stuck p sideways =>
    obtain ⟨hpass, hfind⟩ := of_look_stuck hlook
    rw [hlook] at hsettle
    cases sideways with
    | none => cases hsettle
    | some t =>
      simp only [settle] at hsettle
      split at hsettle
      · obtain rfl := Sum.inr.inj hsettle
        have hchild := List.find?_some hfind.symm
        rw [hpass.form_eq]
        exact of_decide_eq_true hchild
      · cases hsettle

/-- A child is written like the node, and the search may not move there since it
has made all its sideways moves. -/
def Cramped (limit : Nat) (g : Stage τ α) : Prop :=
  limit ≤ g.moves ∧ ∃ c ∈ children g.node, inspect (value c) = inspect (value g.node)

/-- If neither the limit of steps nor that of sideways moves ends a search, no
larger limit changes what comes of it. -/
theorem onward_eq_of_not_cramped {limit' : Nat} (hle : limit ≤ limit')
    (hend : g.next? check limit = none) (hform : inspect (value g.node) = g.known.form)
    (hcomplete : (g.onward check limit).exhausted = false) (hroom : ¬g.Cramped limit) :
    g.onward check limit' = g.onward check limit := by
  by_cases hsteps : limit ≤ g.steps
  · -- The limit of steps is reached, but there is nothing left to look at.
    rw [onward_of_limit_le check hsteps] at hcomplete ⊢
    have hrow : row g.node = .nil := by
      cases h : row g.node with
      | nil => rfl
      | cons t rest => simp [h, Row.isEmpty, Progress.finish] at hcomplete
    by_cases hsteps' : limit' ≤ g.steps
    · rw [onward_of_limit_le check hsteps']
    · rw [onward_of_lt (Nat.lt_of_not_le hsteps') rfl, hrow]
      rfl
  · have hlt : g.steps < limit := Nat.lt_of_not_le hsteps
    have hstop : ∀ g', g.settle limit (look check g.known.expand none (row g.node)) ≠ .inr g' := by
      intro g' h
      cases hend.symm.trans (next?_eq_some.2 ⟨hlt, h⟩)
    rw [onward_of_lt hlt rfl, onward_of_lt (Nat.lt_of_lt_of_le hlt hle) rfl]
    cases hlook : look check g.known.expand none (row g.node) with
    | improved t p => exact absurd (by rw [hlook]; rfl) (hstop ⟨t, p, g.moves⟩)
    | stuck p sideways =>
      cases sideways with
      | none => rfl
      | some t =>
        obtain ⟨-, hfind⟩ := of_look_stuck hlook
        have hmoves : limit ≤ g.moves := by
          by_contra hmore
          refine absurd ?_ (hstop ⟨t, p, g.moves + 1⟩)
          rw [hlook, settle, if_pos (Nat.lt_of_not_le hmore)]
        have hchild := List.find?_some hfind.symm
        have hsame : inspect (value t) = g.known.form := of_decide_eq_true hchild
        exact absurd ⟨hmoves, t, List.mem_of_find?_eq_some hfind.symm, hsame.trans hform.symm⟩ hroom

/-- A search that starts at a node ends at the node of its last stage. -/
theorem value_onward (h : g.next? check limit = none) :
    (g.onward check limit).value = value g.node := by
  by_cases hsteps : limit ≤ g.steps
  · rw [onward_of_limit_le check hsteps]
    rfl
  · have hlt := Nat.lt_of_not_le hsteps
    rw [onward_of_lt hlt rfl]
    rcases settle_spec limit g (look check g.known.expand none (row g.node)) with
      hover | ⟨g', hon, -⟩
    · rw [hover]
      rfl
    · cases h.symm.trans (next?_eq_some.2 ⟨hlt, hon⟩)

end Stage

end Minimize

theorem Tree.row_node {α : Type} (v : α) (ts : List (Tree α)) :
    Branching.row (node v ts) = Row.ofList ts :=
  Row.ext ((children_node v ts).trans (Row.toList_ofList ts).symm)

open Minimize in
/-- A search that is not reported to have been cut short, and that was not held
up for want of sideways moves at the node where it ended, is not improved by a
larger limit. -/
theorem Tree.minimize_limit {α : Type} [Inspect α] (check : α → Verdict) (t : Tree α)
    {n m : Nat} (hle : n ≤ m) (hcomplete : (t.minimize n check).exhausted = false)
    (hroom : ¬((Stage.start t).last check n).Cramped n) :
    t.minimize m check = t.minimize n check ∧
      (t.minimize n check).value = ((Stage.start t).last check n).node.value := by
  have hstart : ∀ limit, t.minimize limit check = (Stage.start t).onward check limit := by
    intro limit
    rw [minimize_eq]
    rfl
  obtain ⟨hform, hend⟩ := Stage.last_induction (g := Stage.start t)
    (I := fun s => Inspect.inspect (Branching.value s.node) = s.known.form)
    (fun _ _ hnext _ => Stage.form_of_next? hnext) rfl
  rw [hstart, ← Stage.onward_last (Nat.le_refl n)] at hcomplete
  rw [hstart, hstart, ← Stage.onward_last hle, ← Stage.onward_last (Nat.le_refl n)]
  exact ⟨Stage.onward_eq_of_not_cramped hle hend hform hcomplete hroom, Stage.value_onward hend⟩

open Minimize in
/-- One sideways move leads to where no child is written like its node, and the one
accepted step to a node that has no children. -/
theorem Tree.minimize_limit_sideways :
    let t : Tree Int64 := .node 30 [.node 30 [.leaf 0, .leaf 12]]
    let check : Int64 → Verdict := fun n => if n < 10 then .pass else .fail none
    (t.minimize 1 check).exhausted = false ∧ t.minimize 5 check = t.minimize 1 check ∧
      (t.minimize 1 check).value = 12 := by
  intro t check
  have hcomplete : (t.minimize 1 check).exhausted = false := by
    simp [t, check, Tree.minimize_eq, Minimize.minimize, Minimize.search, Tree.row_node,
      Row.ofList, Minimize.look, Branching.value, Progress.start, Progress.finish, Tree.leaf,
      inspect_int64_injective.eq_iff, Row.isEmpty]
  let u : Tree Int64 := .node 30 [.leaf 0, .leaf 12]
  let p : Progress Int64 := (Progress.start 30).expand
  let q : Progress Int64 := ((p.expand.note 0).note 12).accept 12 none
  have hsideways : (Stage.start t).next? check 1 = some ⟨u, p, 1⟩ := by
    refine Stage.next?_eq_some.2 ⟨by decide, ?_⟩
    simp [t, u, p, Stage.start, Stage.settle, Tree.row_node, Row.ofList, Minimize.look,
      Branching.value]
  have hstep : Stage.next? check 1 ⟨u, p, 1⟩ = some ⟨.leaf 12, q, 1⟩ := by
    refine Stage.next?_eq_some.2 ⟨by decide, ?_⟩
    simp [u, p, q, check, Stage.settle, Tree.row_node, Row.ofList, Minimize.look,
      Branching.value, Tree.leaf, inspect_int64_injective.eq_iff]
  have hlast : (Stage.start t).last check 1 = ⟨.leaf 12, q, 1⟩ := by
    rw [Stage.last_of_some hsideways, Stage.last_of_some hstep, Stage.last_of_none]
    exact if_pos (Nat.le_refl 1)
  have hroom : ¬((Stage.start t).last check 1).Cramped 1 := by
    rw [hlast]
    simp [Stage.Cramped, Tree.leaf, Tree.children_node]
  obtain ⟨hsame, hvalue⟩ := Tree.minimize_limit check t (by decide : 1 ≤ 5) hcomplete hroom
  exact ⟨hcomplete, hsame, hvalue.trans (by rw [hlast]; rfl)⟩

/-- The only improvement lies below three nodes that are written alike. With one
sideways move the search does not come so far, and does not report a limit; with
two it does. -/
theorem Tree.minimize_held_up :
    let t : Tree Int64 := .node 30 [.node 30 [.node 30 [.leaf 12]]]
    let check : Int64 → Verdict := fun n => if n < 10 then .pass else .fail none
    ReadsForm check ∧ check t.value ≠ .pass ∧ (t.minimize 1 check).exhausted = false ∧
      (t.minimize 1 check).value = 30 ∧ (t.minimize 2 check).value = 12 := by
  intro t check
  refine ⟨ReadsForm.of_injective inspect_int64_injective _, by decide, ?_, ?_, ?_⟩ <;>
    simp [t, check, Tree.minimize_eq, Minimize.minimize, Minimize.search, Tree.row_node,
      Row.ofList, Minimize.look, Branching.value, Minimize.Progress.start,
      Minimize.Progress.finish, Tree.leaf, inspect_int64_injective.eq_iff]

end PropertyTesting
