import PropertyTesting.Run.Tally
import PropertyTesting.Number.Double

/-!
What came of running a property, and the report of it.
-/

namespace PropertyTesting

/-- One value on the way from the first counterexample to the smallest. -/
structure ShrinkStep where
  counterexample : String
  /-- Zero for the first counterexample, and then counting the accepted steps. -/
  step : Nat
  variableName : Option String
deriving DecidableEq, Repr

/-- A run in which every test passed. -/
structure Passed where
  testsRun : Nat
  seed : UInt64
  name : Option String
  tally : Tally

/-- A run that ended with a test that failed. -/
structure Failed where
  counterexample : String
  initial : String
  testsRun : Nat
  shrinks : Nat
  seed : UInt64
  name : Option String
  panic : Option String
  steps : List ShrinkStep
deriving DecidableEq, Repr

/-- What came of running a property. -/
inductive Outcome where
  | pass (run : Passed)
  | fail (run : Failed)

namespace Outcome

def displayName (name : Option String) : String :=
  name.getD "property"

/-- A share in percent, rounded and brought to three places. -/
def percentage (count total : Nat) : String :=
  let percent :=
    if total = 0 then .zero
    else Double.ofFloat (Float.ofNat count / Float.ofNat total * 100.0)
  let digits := toString percent.rounded
  "".pushn ' ' (3 - digits.length) ++ digits

def distribution (s : Tally) : String :=
  if s.isEmpty then
    ""
  else
    let line : String × Nat → String := fun (label, count) =>
      s!"\n    {percentage count s.total}% {label} ({count})"
    "\n\n  Test data distribution:" ++ String.join (s.entries.map line)

def stepLine (s : ShrinkStep) : String :=
  match s.variableName, s.step with
  | some name, n => s!"      │ forAll {n} = {s.counterexample} -- {name}\n"
  | none, 0 => s!"      │ Original: {s.counterexample}\n"
  | none, n => s!"      │ Step {n}: {s.counterexample}\n"

def reportPassed (r : Passed) : String :=
  s!"  ✓ {displayName r.name} passed {r.testsRun} tests (seed {r.seed})."
    ++ distribution r.tally

/-- The report of a run that failed. The way to the smallest counterexample is
shown if there is one. -/
def reportFailed (r : Failed) : String :=
  let heading :=
    s!"  ✗ {displayName r.name} failed after {r.testsRun} tests and {r.shrinks} shrinks "
      ++ s!"(seed {r.seed}).\n"
  let way :=
    if 1 < r.steps.length then
      "\n    Shrinking progression:\n" ++ String.join (r.steps.map stepLine) ++ "\n"
    else
      s!"    Original counterexample: {r.initial}\n"
  let panicked :=
    match r.panic with
    | some message => s!"    === Panicked: {message} ===\n"
    | none => ""
  heading ++ way ++ panicked ++ s!"    Minimal counterexample: {r.counterexample}"

def report : Outcome → String
  | pass r => reportPassed r
  | fail r => reportFailed r

def isPass : Outcome → Bool
  | pass _ => true
  | fail _ => false

/-- The seed of the run, with which it can be replayed. -/
def seed : Outcome → UInt64
  | pass r => r.seed
  | fail r => r.seed

def same : Outcome → Outcome → Bool
  | pass r, pass s =>
    r.testsRun == s.testsRun && r.seed == s.seed && r.name == s.name
      && r.tally.same s.tally
  | fail r, fail s => r == s
  | _, _ => false

end Outcome

end PropertyTesting
