import PropertyTesting.Fault
import PropertyTesting.Number.Reading
import PropertyTesting.Text.Blank
import PropertyTesting.Random.Choice

/-!
How a property is run: how often, how far a failure is shrunk, from which
seed, and how likely a draw is to be an edge case. Settings can be overlaid by
variables, whose texts are read without the blanks around them.
-/

namespace PropertyTesting

/-- How likely it is that a draw is replaced by an edge case. -/
structure EdgeChance where
  probability : Double
  valid : probability.inUnitInterval = true
deriving DecidableEq, Repr

namespace EdgeChance

/-- A given chance of edge cases, from zero to one. -/
def ofProbability (p : Double) : Except Fault EdgeChance :=
  if h : p.inUnitInterval = true then
    .ok ⟨p, h⟩
  else
    .error (.config (.improbable p))

def always : EdgeChance := ⟨.one, by decide⟩

def never : EdgeChance := ⟨.zero, by decide⟩

/-- One edge case in fifty draws. -/
def standard : EdgeChance := ⟨⟨0x3f947ae147ae147b⟩, by decide⟩

/-- Roll whether a draw is an edge case: the chance, in parts of two to the
power of 53, is compared with a random number of them. -/
def roll (edge : EdgeChance) : Draw Bool := do
  let n ← Draw.fraction
  return n < edge.probability.ceilFraction

def describe (edge : EdgeChance) : String :=
  s!"EdgeConfig({DoubleNotation.plain.write edge.probability})"

end EdgeChance

/-- The settings of a run. -/
structure Config where
  testLimit : Nat := 1000
  shrinkLimit : Nat := 1000
  /-- The seed to replay. A fresh one is taken if there is none. -/
  seed : Option UInt64 := none
  edge : EdgeChance := .standard
deriving DecidableEq, Repr

namespace Config

def withProbability (c : Config) (p : Double) : Except Fault Config := do
  let edge ← EdgeChance.ofProbability p
  return { c with edge := edge }

def testsVariable : String := "KESTREL_ITERATIONS"

def seedVariable : String := "KESTREL_SEED"

def probabilityVariable : String := "KESTREL_EDGECASE_PROBABILITY"

/-- Read the text of a variable, without the blanks around it. -/
def read {α : Type} (name : String) (read? : List Char → Option α) (text : String) :
    Except Fault α :=
  match read? (Blank.trim text.toList) with
  | some value => .ok value
  | none => .error (.config (.unreadable name text))

def wordBound : Nat := 0x10000000000000000

def overlay (c : Config) (lookup : String → Option String) : Except Fault Config := do
  let c ←
    match lookup testsVariable with
    | some text => do
      let n ← read testsVariable (Reading.natural? wordBound) text
      pure { c with testLimit := n }
    | none => pure c
  let c ←
    match lookup seedVariable with
    | some text => do
      let n ← read seedVariable (Reading.natural? wordBound) text
      pure { c with seed := some n.toUInt64 }
    | none => pure c
  match lookup probabilityVariable with
  | some text => do
    let p ← read probabilityVariable Reading.double? text
    c.withProbability p
  | none => return c

end Config

end PropertyTesting
