import PropertyTesting.Tree.Branching
import PropertyTesting.Text.Written
import Std.Data.HashSet

/-!
Minimizing a failing value. From a failing node the search goes to its first
child that fails too, and on from there; siblings are not looked at again. No
value is tried twice: values are told apart by their written form, and a form
that was met before is passed over. A child that is written like the current
node is known to fail. It is no progress, but if no child makes any, the
search moves sideways into the first such child, because its own children may.
Accepted steps and sideways moves are both limited, so the search ends on every
tree.
-/

namespace PropertyTesting

/-- What a predicate says about one value. -/
inductive Verdict where
  | pass
  /-- The predicate is false, or it broke off with a message. -/
  | fail (panic : Option String)
deriving DecidableEq, Repr

/-- What came of minimizing a failing value. -/
structure Minimized (α : Type) where
  value : α
  steps : Nat
  /-- The value it started from and then every accepted one. -/
  progression : List α
  /-- Whether the limit of steps ended the search before it was complete. -/
  exhausted : Bool
  /-- The message with which the predicate broke off on the value, unless no
  step was accepted. -/
  panic : Option String
  tried : List α
  /-- The number of nodes whose children were asked for. -/
  expansions : Nat

namespace Minimize

def standardLimit : Nat := 1000

variable {τ υ α : Type} [Branching τ α] [Branching υ α] [Inspect α]

open Branching Inspect

/-- What is known while a search goes on. Lists are kept newest first. -/
structure Progress (α : Type) where
  /-- The written form of the value that the search has come to. -/
  form : String
  /-- The written forms that were met so far. -/
  met : Std.HashSet String
  /-- How many values were accepted after the first one. -/
  steps : Nat
  accepted : List α
  length_accepted : accepted.length = steps + 1
  tried : List α
  panic : Option String
  expansions : Nat

namespace Progress

/-- A value is tried. -/
@[inline] def note (p : Progress α) (v : α) : Progress α :=
  { p with met := p.met.insert (inspect v), tried := v :: p.tried }

/-- A value that was tried takes the place of the current one. -/
@[inline] def accept (p : Progress α) (v : α) (panic : Option String) : Progress α :=
  { p with
    form := inspect v
    steps := p.steps + 1
    accepted := v :: p.accepted
    length_accepted := congrArg Nat.succ p.length_accepted
    panic := panic }

/-- The children of one more node are asked for. -/
@[inline] def expand (p : Progress α) : Progress α :=
  { p with expansions := p.expansions + 1 }

/-- Where a search starts: at a value that fails and is not tried again. -/
def start (v : α) : Progress α where
  form := inspect v
  met := {inspect v}
  steps := 0
  accepted := [v]
  length_accepted := rfl
  tried := []
  panic := none
  expansions := 0

/-- The outcome of a search that ends at a value. -/
def finish (p : Progress α) (v : α) (exhausted : Bool) : Minimized α where
  value := v
  steps := p.steps
  progression := p.accepted.reverse
  exhausted := exhausted
  panic := p.panic
  tried := p.tried.reverse
  expansions := p.expansions

end Progress

/-- How a look at the children of a node ends. -/
inductive Look (τ α : Type) where
  /-- A child fails, and the search goes on there. -/
  | improved (t : τ) (p : Progress α)
  /-- No child makes progress. The first one that is written like the node
  itself is kept. -/
  | stuck (p : Progress α) (sideways : Option τ)

/-- Look at children one after the other until one fails that is neither known
nor written like the node. -/
def look (check : α → Verdict) (p : Progress α) (sideways : Option τ) : Row τ → Look τ α
  | .nil => .stuck p sideways
  | .cons t rest =>
    let v := value t
    let form := inspect v
    if form = p.form then
      look check p (sideways <|> some t) (rest ())
    else if p.met.contains form then
      look check p sideways (rest ())
    else
      match check v with
      | .pass => look check (p.note v) sideways (rest ())
      | .fail panic => .improved t ((p.note v).accept v panic)

/-- Search on from a node with so many accepted steps and so many sideways
moves left. -/
def search (check : α → Verdict) (steps moves : Nat) (t : τ) (p : Progress α) : Minimized α :=
  let below := row t
  let p := p.expand
  match steps with
  | 0 => p.finish (value t) !below.isEmpty
  | steps + 1 =>
    match look check p none below with
    | .improved t p => search check steps moves t p
    | .stuck p none => p.finish (value t) false
    | .stuck p (some u) =>
      match moves with
      | 0 => p.finish (value t) false
      | moves + 1 => search check (steps + 1) moves u p
termination_by steps + moves

def minimize (limit : Nat) (check : α → Verdict) (t : τ) : Minimized α :=
  search check limit limit t (Progress.start (value t))

/-- Apply a function to the nodes that a look found. -/
def Look.map (f : τ → υ) : Look τ α → Look υ α
  | improved t p => improved (f t) p
  | stuck p sideways => stuck p (sideways.map f)

/-- A look only sees the values of nodes. -/
theorem look_map (check : α → Verdict) {f : τ → υ} (hf : ∀ t, value (f t) = value t)
    (p : Progress α) (sideways : Option τ) (ts : Row τ) :
    look check p (sideways.map f) (ts.map f) = (look check p sideways ts).map f := by
  induction ts generalizing p sideways with
  | nil => rfl
  | cons t rest ih =>
    have h : (sideways.map f <|> some (f t)) = (sideways <|> some t).map f := by
      cases sideways <;> rfl
    simp only [Row.map, look, hf, h, ih]
    split
    · rfl
    · split
      · rfl
      · cases check (value t) <;> rfl

/-- A search over a finite part of a tree that is deep enough is a search over
the tree itself. -/
theorem search_approx (check : α → Verdict) (steps moves n : Nat) (t : Tree α)
    (p : Progress α) (h : steps + moves < n) :
    search check steps moves (t.approx n) p = search check steps moves t p := by
  induction n generalizing steps moves t p with
  | zero => omega
  | succ n ih =>
    have look_eq := fun p : Progress α =>
      look_map check (f := fun u : Tree α => u.approx n) (fun u => u.value_approx n) p none
        t.row
    cases steps with
    | zero =>
      have := congrArg List.isEmpty (Tree.map_approx_children t n)
      simp only [search, Branching.value, Branching.row, Tree.value_approx, ← Row.isEmpty_toList,
        Rose.toList_row, Tree.toList_row, ← this, List.isEmpty_map]
    | succ steps =>
      rw [search.eq_def, search.eq_def check (steps + 1)]
      simp only [Branching.row, Branching.value, ← Tree.map_approx_row, Tree.value_approx]
      rw [Option.map_none] at look_eq
      rw [look_eq]
      match look check p.expand none t.row with
      | .improved u p => exact ih steps moves u p (by omega)
      | .stuck p none => rfl
      | .stuck p (some u) =>
        match moves with
        | 0 => rfl
        | moves + 1 => exact ih (steps + 1) moves u p (by omega)

end Minimize

/-- Minimize the failing value at the root of a tree, with at most so many
accepted steps. No search goes deeper than as many steps and as many sideways
moves lead, and one more level to look at. -/
def Tree.minimize {α : Type} [Inspect α] (limit : Nat) (check : α → Verdict) (t : Tree α) :
    Minimized α :=
  Minimize.minimize limit check (t.approx (2 * limit + 1))

/-- Minimizing looks at a tree as if there were no bound on its depth. -/
theorem Tree.minimize_eq {α : Type} [Inspect α] (limit : Nat) (check : α → Verdict)
    (t : Tree α) : t.minimize limit check = Minimize.minimize limit check t := by
  rw [Tree.minimize, Minimize.minimize, Minimize.minimize,
    Minimize.search_approx check limit limit _ t _ (by omega)]
  simp [Branching.value, Tree.value_approx]

end PropertyTesting
