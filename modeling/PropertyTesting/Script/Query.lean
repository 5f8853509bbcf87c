import PropertyTesting.Script.Value
import PropertyTesting.Tree.Drawing
import PropertyTesting.Tree.Path

/-!
Questions about shrink trees and their answers.
-/

namespace PropertyTesting.Script

/-- A question about a tree. -/
inductive Query where
  | value
  | write
  | children
  | first
  | hasShrinks
  | shrinks (n : Nat)
  | expand (depth : Nat)
  | count (depth : Nat)
  | render (depth : Nat)
  | compact (depth : Nat)
  | renderShrinks (n : Nat)
  /-- Questions about the tree at the end of a path of child positions. -/
  | walk (path : List Nat) (queries : List Query)

/-- An answer to a question. -/
inductive Answer where
  | value (v : Value)
  | values (vs : List Value)
  | text (s : String)
  | flag (b : Bool)
  | number (n : Nat)
  /-- The place in a path at which a child is missing. -/
  | missing (place : Nat)
  | answers (as : List Answer)

/-- The exact written form of a tree, which shows its root. -/
def writeTree (t : Tree Value) : String :=
  Written.bracketed "Tree \x7b " ", .. \x7d" ["value: " ++ t.value.write]

mutual

def Query.answer : Query → Tree Value → Answer
  | value, t => .value t.value
  | write, t => .text (writeTree t)
  | children, t => .values ((t.approx 1).children.map Rose.value)
  | first, t =>
    match (t.approx 1).row.head? with
    | some c => .value c.value
    | none => .text "leaf"
  | hasShrinks, t => .flag t.hasShrinks
  | shrinks n, t => .values (t.shrinks n)
  | expand depth, t => .values (t.expand depth)
  | count depth, t => .number (t.count depth)
  | render depth, t => .text (t.render depth)
  | compact depth, t => .text (t.renderCompact depth)
  | renderShrinks n, t => .text (t.renderShrinks n)
  | walk path queries, t =>
    match t.descend path with
    | .ok u => .answers (Query.answerAll queries u)
    | .error place => .missing place

def Query.answerAll : List Query → Tree Value → List Answer
  | [], _ => []
  | q :: qs, t => q.answer t :: Query.answerAll qs t

end

end PropertyTesting.Script
