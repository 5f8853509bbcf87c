import PropertyTesting.Script.Expression
import PropertyTesting.Script.Query
import PropertyTesting.Run.Property

/-!
Scripts that are run step by step: sessions with random sources, with one
arbitrary, with a stream of samples, with tables of counts.
-/

namespace PropertyTesting.Script

/-- A step with a random source. -/
inductive SourceStep where
  | u32
  | u64
  | seed
  | describe
  | fork
  | clone
  | same (other : Nat)
  | fill (n : Nat)
  | range (lo hi : Int64)
  | f64
  | bool
  | shuffle (n : Nat)
  | choose (n : Nat)

/-- What a step with a random source gives. -/
inductive SourceAnswer where
  | number (n : Nat)
  | word (w : UInt64)
  | integer (n : Int64)
  | text (s : String)
  | flag (b : Bool)
  | bytes (bs : List UInt8)
  | double (x : Double)
  | order (ns : List Nat)
  | chosen (n : Option Nat)

namespace SourceStep

/-- The draw that a step makes, if it only draws. -/
def draw : SourceStep → Draw SourceAnswer
  | u32 => do
    let w ← Draw.halfWord
    return .number w.toNat
  | u64 => do
    let w ← Draw.word
    return .word w
  | fill n => do
    let bs ← Draw.bytes n
    return .bytes bs
  | range lo hi => do
    let n ← (Roll.range lo hi).draw
    return .integer n.measure
  | f64 => do
    let n ← Draw.fraction
    return .double (Double.ofFraction n)
  | bool => do
    let b ← Draw.bool
    return .flag b
  | shuffle n => do
    let order ← Draw.shuffle (Array.range n)
    return .order order.toList
  | choose n => do
    let i ← Draw.choose (List.range n)
    return .chosen i
  | _ => do
    let rs ← get
    return .text rs.describe

/-- Take a step with one of several sources. Steps can add sources. -/
def run (sources : Array RandomSource) (on : Nat) (step : SourceStep) :
    SourceAnswer × Array RandomSource :=
  let rs := sources.getD on (.seeded 0)
  match step with
  | seed => (.word rs.seed, sources)
  | describe => (.text rs.describe, sources)
  | fork =>
    let (child, rs) := Draw.fork rs
    (.word child.seed, (sources.setIfInBounds on rs).push child)
  | clone => (.number sources.size, sources.push rs)
  | same other => (.flag (rs == sources.getD other (.seeded 0)), sources)
  | step =>
    let (answer, rs) := step.draw rs
    (answer, sources.setIfInBounds on rs)

def runAll : Array RandomSource → List (Nat × SourceStep) → List SourceAnswer
  | _, [] => []
  | sources, (on, step) :: steps =>
    let (answer, sources) := run sources on step
    answer :: runAll sources steps

end SourceStep

/-- A sample, and the answers to questions about its tree, if any were asked. -/
structure Examined where
  value : Value
  answers : Option (List Answer)

def examine (queries : Option (List Query)) (s : Sample Value) : Examined :=
  ⟨s.value, queries.map fun qs => Query.answerAll qs s.shrinks⟩

/-- A step with an arbitrary. -/
inductive ArbitraryStep where
  | sample (queries : Option (List Query))
  | edge
  | probe
  | take (n : Nat) (seed : UInt64)
  | edgeCases (n : Nat) (seed : UInt64)
  | samples (n : Nat) (seed : UInt64)

/-- What a step with an arbitrary gives. -/
inductive ArbitraryAnswer where
  | sample (result : Except Fault Examined)
  | edge (e : Option Value)
  | word (w : UInt64)
  | values (result : Except Fault (List Value))
  | samples (results : List (Except Fault Value))

/-- Take a step with an arbitrary and a source that is shared by all steps. -/
def ArbitraryStep.run (a : Arbitrary Value) : ArbitraryStep → Draw ArbitraryAnswer
  | sample queries => do
    let result ← a.sample.run
    return .sample (result.map (examine queries))
  | edge => do
    let e ← a.edge
    return .edge e
  | probe => do
    let w ← Draw.word
    return .word w
  | take n seed => return .values (a.take n (.seeded seed))
  | edgeCases n seed => return .values (a.edgeCases n (.seeded seed))
  | samples n seed =>
    return .samples ((a.samples n (.seeded seed)).map fun result => result.map (·.value))

def ArbitraryStep.runAll (a : Arbitrary Value) : List ArbitraryStep → Draw (List ArbitraryAnswer)
  | [] => return []
  | step :: steps => do
    let answer ← step.run a
    let answers ← runAll a steps
    return answer :: answers

/-- The chance of edge cases that a script asks for. -/
inductive EdgeChoice where
  | standard
  | always
  | never
  | probability (p : Double)

def EdgeChoice.build : EdgeChoice → Except Fault EdgeChance
  | standard => .ok .standard
  | always => .ok .always
  | never => .ok .never
  | probability p => EdgeChance.ofProbability p

/-- The first samples of a stream, examined, and how many samples it takes
before every value can have been seen. -/
def examineStream (s : GeneratorExpr) (edge : EdgeChoice) (seed : UInt64) (n : Nat)
    (queries : Option (List Query)) : Built (Nat × List (Except Fault Examined)) := do
  let g ← s.build
  let edge ← Built.ofFault edge.build
  let samples := (g.generate (.seeded seed) edge).take n
  return (g.minIterations, samples.map fun result => result.map (examine queries))

/-- How a sample is made. -/
inductive SampleExpr where
  | plain (v : Value)
  | shrinking (v : Value) (s : Reduction)
  | tree (t : TreeExpr)

def SampleExpr.build : SampleExpr → Built (Sample Value)
  | plain v => .ok (.plain v)
  | shrinking v s => .ok (.shrinking s.apply v)
  | tree t => t.require.map .ofTree

def writeSample (s : Sample Value) : String :=
  Written.bracketed "Sample \x7b " " \x7d" ["value: " ++ s.value.write]

def writeExhaustive (x : Enumeration Value) : String :=
  Written.bracketed "Exhaustive(" ")" [(Value.list x.values.toList).write]

/-- Settings that differ from the standard ones. -/
structure Settings where
  tests : Option Nat
  shrinks : Option Nat
  seed : Option UInt64
  probability : Option Double

/-- Change the standard configuration, in the order of the settings. -/
def Settings.build (s : Settings) : Except Fault Config :=
  let c : Config := {}
  let c := { c with
    testLimit := s.tests.getD c.testLimit
    shrinkLimit := s.shrinks.getD c.shrinkLimit
    seed := s.seed }
  match s.probability with
  | some p => c.withProbability p
  | none => .ok c

/-- A remark that a predicate makes about every value. -/
inductive Remark where
  | when (condition : Predicate) (label : String)
  | either (condition : Predicate) (yes no : String)

def Remark.condition : Remark → Predicate
  | .when condition _ => condition
  | either condition _ _ => condition

def Remark.decide (b : Bool) : Remark → Classification
  | .when _ label => .when b label
  | either _ yes no => .either b yes no

/-- Make remarks in order and then ask a predicate. A condition that breaks off
ends it all. -/
def trial (p : Predicate) : List Remark → Value → Trial
  | [], v => ⟨[], p.check v⟩
  | r :: rs, v =>
    match r.condition.eval v with
    | .ok b =>
      let rest := trial p rs v
      { rest with remarks := r.decide b :: rest.remarks }
    | .error message => ⟨[], .fail (some message)⟩

/-- A property to run. -/
structure PropertyExpr where
  gen : GeneratorExpr
  predicate : Predicate
  remarks : List Remark
  settings : Settings
  variableName : Option String
  name : Option String

/-- Build a property and then its configuration, and run it. -/
def PropertyExpr.run (e : PropertyExpr) (freshSeed : UInt64) : Built Outcome := do
  let gen ← e.gen.build
  let config ← Built.ofFault e.settings.build
  let p : Property Value := ⟨gen, trial e.predicate e.remarks, e.variableName, e.name⟩
  Built.ofFault (p.run config freshSeed)

/-- Whether the seed of a source brings the same source back. -/
def replaysSource (freshSeed : UInt64) : Bool :=
  let fresh := RandomSource.seeded freshSeed
  RandomSource.seeded fresh.seed == fresh

/-- Whether a run from a fresh seed comes out the same when it is replayed from
the seed that it reports. -/
def PropertyExpr.replays (e : PropertyExpr) (freshSeed : UInt64) : Built Bool := do
  let fresh ← { e with settings := { e.settings with seed := none } }.run freshSeed
  let again ← { e with settings := { e.settings with seed := some fresh.seed } }.run 0
  return fresh.same again

/-- A step with tables of counts. -/
inductive TableStep where
  | new
  | record (label : String)
  | total (n : Nat)
  | merge (other : Nat)
  | count (label : String)
  | same (other : Nat)

/-- What a step with tables of counts gives. -/
inductive TableAnswer where
  | table (s : Tally)
  | number (n : Nat)
  | flag (b : Bool)

namespace TableStep

def run (tables : Array Tally) (on : Nat) (step : TableStep) :
    TableAnswer × Array Tally :=
  let s := tables.getD on .empty
  let change (s : Tally) := (TableAnswer.table s, tables.setIfInBounds on s)
  match step with
  | new => (.number tables.size, tables.push .empty)
  | record label => change (s.record label)
  | total n => change { s with total := n }
  | merge other => change (s.merge (tables.getD other .empty))
  | count label => (.number (s.count label), tables)
  | same other => (.flag (s.same (tables.getD other .empty)), tables)

def runAll : Array Tally → List (Nat × TableStep) → List TableAnswer
  | _, [] => []
  | tables, (on, step) :: steps =>
    let (answer, tables) := run tables on step
    answer :: runAll tables steps

end TableStep

end PropertyTesting.Script
