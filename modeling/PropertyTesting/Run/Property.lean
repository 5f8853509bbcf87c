import PropertyTesting.Generate.Generator
import PropertyTesting.Run.Minimize
import PropertyTesting.Run.Outcome

/-!
Properties and how they are run. A property is a generator and a predicate
that ought to hold of everything it generates. A run draws samples until the
predicate fails on one, a fault stops the run, or enough tests have passed.
-/

namespace PropertyTesting

/-- What one invocation of a predicate says: its verdict, and the remarks that
it made on the way. -/
structure Trial where
  remarks : List Classification
  verdict : Verdict

/-- A generator and a predicate that ought to hold of all that it generates. -/
structure Property (α : Type) where
  gen : Generator α
  predicate : α → Trial
  variableName : Option String := none
  name : Option String := none

namespace Property

variable {α : Type} [Inspect α]

/-- How the tests of a run end. -/
inductive Tested (α : Type) where
  | passed (tally : Tally)
  | failed (place : Nat) (sample : Sample α) (panic : Option String)

/-- Test the samples of a stream, counting from a place, and gather what is
remarked about them. -/
def test (predicate : α → Trial) :
    Nat → Nat → Tally → Samples α → Except Fault (Tested α)
  | 0, _, tally, _ => .ok (.passed tally)
  | n + 1, place, tally, samples =>
    match samples.next with
    | (.error fault, _) => .error fault
    | (.ok sample, samples) =>
      let trial := predicate sample.value
      match trial.verdict with
      | .fail panic => .ok (.failed place sample panic)
      | .pass =>
        test predicate n (place + 1) (tally.merge (Classification.table trial.remarks))
          samples

/-- Refuse a configuration with which no test would be made, or too few to see
every value. -/
def validate (p : Property α) (config : Config) : Except Fault Unit := do
  if config.testLimit = 0 then
    throw (.config .noIterations)
  if config.testLimit < p.gen.minIterations then
    throw (.tooFewIterations config.testLimit p.gen.minIterations)

/-- What is said about a run in which every test passed. -/
def passed (p : Property α) (config : Config) (seed : UInt64) (tally : Tally) : Passed where
  testsRun := config.testLimit
  seed := seed
  name := p.name
  tally := { tally with total := config.testLimit }

/-- What is said about a run that ended with a failing sample, once that was
minimized. -/
def failed (p : Property α) (seed : UInt64) (testsRun : Nat) (sample : Sample α)
    (panic : Option String) (shrunk : Minimized α) : Failed where
  counterexample := Inspect.inspect shrunk.value
  initial := Inspect.inspect sample.shrinks.value
  testsRun := testsRun
  shrinks := shrunk.steps
  seed := seed
  name := p.name
  panic := if 0 < shrunk.steps then shrunk.panic else panic
  steps := shrunk.progression.zipIdx.map fun (v, i) =>
    ⟨Inspect.inspect v, i, p.variableName⟩

/-- Minimize a failing sample. -/
def shrunk (p : Property α) (config : Config) (sample : Sample α) : Minimized α :=
  sample.shrinks.minimize config.shrinkLimit fun v => (p.predicate v).verdict

/-- What the tests of a run come to. -/
def conclude (p : Property α) (config : Config) (seed : UInt64) : Tested α → Outcome
  | .passed tally => .pass (p.passed config seed tally)
  | .failed place sample panic =>
    .fail (p.failed seed (place + 1) sample panic (p.shrunk config sample))

def runFrom (p : Property α) (config : Config) (source : RandomSource) :
    Except Fault Outcome := do
  p.validate config
  let tested ← test p.predicate config.testLimit 0 .empty (p.gen.generate source config.edge)
  return p.conclude config source.seed tested

/-- Run a property from the seed of its configuration, or from a fresh seed if
that names none. -/
def run (p : Property α) (config : Config) (freshSeed : UInt64) : Except Fault Outcome :=
  p.runFrom config (.seeded (config.seed.getD freshSeed))

end Property

end PropertyTesting
