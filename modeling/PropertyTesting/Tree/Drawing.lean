import PropertyTesting.Tree.Walk
import PropertyTesting.Text.Written

/-!
Shrink trees as text: drawn with branches, one node a line; in brackets on a
single line; or as a list of the first shrinks.
-/

namespace PropertyTesting

namespace Branching

variable {τ υ α : Type} [Branching τ α] [Display α]

open Display

/-- The drawings of siblings, of which only the last has no branch going on. -/
def drawRow (draw : Bool → τ → String) : List τ → String
  | [] => ""
  | t :: ts => draw ts.isEmpty t ++ drawRow draw ts

theorem drawRow_map (draw : Bool → υ → String) (f : τ → υ) (ts : List τ) :
    drawRow draw (ts.map f) = drawRow (fun isLast t => draw isLast (f t)) ts := by
  induction ts with
  | nil => rfl
  | cons t ts ih => simp [drawRow, ih]

/-- The drawing of a node and what is below it, down to a depth. The margin
holds the branches of the levels above. -/
def draw : Nat → String → Bool → τ → String
  | depth, margin, isLast, t =>
    let line := margin ++ (if isLast then "└── " else "├── ") ++ display (value t) ++ "\n"
    match depth with
    | 0 => line
    | depth + 1 =>
      line ++ drawRow (draw depth (margin ++ if isLast then "    " else "│   ")) (children t)

/-- The value of a node, and in brackets what is below it, down to a depth. -/
def compact : Nat → τ → String
  | 0, t => display (value t)
  | depth + 1, t =>
    match (children t).map (compact depth) with
    | [] => display (value t)
    | parts => display (value t) ++ "[" ++ ", ".intercalate parts ++ "]"

end Branching

namespace Tree

variable {α : Type} [Display α]

/-- Drawing sees a tree as if its depth were not bounded. -/
theorem draw_approx (depth : Nat) (margin : String) (isLast : Bool) (t : Tree α) :
    Branching.draw depth margin isLast (t.approx depth) =
      Branching.draw depth margin isLast t := by
  induction depth generalizing margin isLast t with
  | zero => rfl
  | succ depth ih =>
    simp [Branching.draw, Branching.value, value_approx,
      ← map_approx_children, Branching.drawRow_map, ih]

/-- A drawing of the tree down to a depth, one node a line. -/
def render (t : Tree α) (depth : Nat) : String :=
  Branching.draw depth "" true (t.approx depth)

theorem render_eq (t : Tree α) (depth : Nat) : t.render depth = Branching.draw depth "" true t :=
  draw_approx ..

def renderCompact (t : Tree α) (depth : Nat) : String :=
  Branching.compact depth (t.approx depth)

theorem renderCompact_eq (t : Tree α) (depth : Nat) :
    t.renderCompact depth = Branching.compact depth t := by
  rw [renderCompact]
  induction depth generalizing t with
  | zero => rfl
  | succ depth ih =>
    simp [Branching.compact, Branching.value, value_approx,
      ← map_approx_children, Function.comp_def, ih]

/-- The root and its first shrinks in breadth-first order. -/
def renderShrinks (t : Tree α) (limit : Nat) : String :=
  match t.shrinks limit with
  | [] => Display.display t.value ++ " (no shrinks)"
  | values =>
    Display.display t.value ++ " → [" ++ ", ".intercalate (values.map Display.display) ++ "]"

end Tree

end PropertyTesting
