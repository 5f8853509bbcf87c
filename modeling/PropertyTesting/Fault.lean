import PropertyTesting.Number.Notation
import PropertyTesting.Text.Quoted

/-!
What can be wrong with a run itself. A predicate that fails is no fault; a
fault says that the configuration or a generator is broken, and for what
reason. The wording is in one place.
-/

namespace PropertyTesting

/-- Why a configuration cannot be used. -/
inductive ConfigFault where
  /-- A chance of edge cases that is not between zero and one. -/
  | improbable (probability : Double)
  /-- A variable whose text does not read as a value. -/
  | unreadable (name text : String)
  | noIterations
  | other (message : String)
deriving DecidableEq, Repr

/-- Why a generator cannot be used. -/
inductive GeneratorFault where
  | emptyRange (lo hi : Int)
  | emptyLengthRange (min max : Nat)
  | noValues
  | noChoices
  | nothingToEnumerate
  | other (message : String)
deriving DecidableEq, Repr

/-- What stopped a run. -/
inductive Fault where
  | config (reason : ConfigFault)
  | generator (reason : GeneratorFault)
  /-- Too few iterations to see every value of an enumeration. -/
  | tooFewIterations (requested required : Nat)
  /-- So many values in a row were rejected by a filter. -/
  | filterExhausted (attempts : Nat)
deriving DecidableEq, Repr

def ConfigFault.message : ConfigFault → String
  | improbable p =>
    s!"edge-case probability {DoubleNotation.plain.write p} is not between 0.0 and 1.0"
  | unreadable name text => s!"{name}={Quoted.string text} could not be parsed"
  | noIterations => "a property needs at least one iteration"
  | other message => message

def GeneratorFault.message : GeneratorFault → String
  | emptyRange lo hi => s!"empty range {lo}..={hi}"
  | emptyLengthRange min max => s!"empty length range {min}..={max}"
  | noValues => "Arb::of needs at least one value"
  | noChoices => "Arb::choice needs at least one arbitrary"
  | nothingToEnumerate => "an exhaustive generator needs at least one value"
  | other message => message

def Fault.message : Fault → String
  | config reason => s!"Invalid configuration: {reason.message}"
  | generator reason => s!"Invalid generator: {reason.message}"
  | tooFewIterations requested required =>
    s!"Requested {requested} iterations but the generator requires at least {required}"
  | filterExhausted attempts => s!"Filter rejected {attempts} consecutive values"

end PropertyTesting
