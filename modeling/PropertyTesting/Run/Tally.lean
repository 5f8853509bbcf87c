import Std.Data.ExtTreeMap

/-!
How often each kind of input came up. A predicate classifies the values it is
given by labels; a table counts the labels of a run and keeps them in order.
-/

namespace PropertyTesting

/-- Counts by label, and the number of tests they come from. -/
structure Tally where
  counts : Std.ExtTreeMap String Nat compare
  total : Nat

namespace Tally

def empty : Tally :=
  ⟨∅, 0⟩

def add (s : Tally) (label : String) (n : Nat) : Tally :=
  { s with counts := s.counts.insert label (s.counts.getD label 0 + n) }

def record (s : Tally) (label : String) : Tally :=
  s.add label 1

def count (s : Tally) (label : String) : Nat :=
  s.counts.getD label 0

def entries (s : Tally) : List (String × Nat) :=
  s.counts.toList

def isEmpty (s : Tally) : Bool :=
  s.counts.isEmpty

/-- Add the counts of another table. The total stays as it is. -/
def merge (s other : Tally) : Tally :=
  other.entries.foldl (fun s (label, n) => s.add label n) s

/-- The table of labels that were recorded a number of times each. -/
def ofRecords (records : List (String × Nat)) (total : Nat) : Tally :=
  let record (s : Tally) : String × Nat → Tally := fun (label, n) =>
    if n = 0 then s else s.add label n
  { records.foldl record empty with total := total }

/-- Whether two tables have the same labels, counts and total. -/
def same (s other : Tally) : Bool :=
  s.entries == other.entries && s.total == other.total

end Tally

/-- A remark of a predicate about the value it was given. -/
inductive Classification where
  | when (condition : Bool) (label : String)
  | either (condition : Bool) (yes no : String)
deriving DecidableEq, Repr

namespace Classification

def labels : Classification → List String
  | .when condition label => if condition then [label] else []
  | either condition yes no => [if condition then yes else no]

def table (cs : List Classification) : Tally :=
  (cs.flatMap labels).foldl Tally.record .empty

end Classification

end PropertyTesting
