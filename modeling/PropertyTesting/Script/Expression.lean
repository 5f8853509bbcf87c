import PropertyTesting.Script.Ingredient
import PropertyTesting.Script.Kind
import PropertyTesting.Generate.Generator

/-!
Generators, trees and streams of test data, written down as data and built
from that. Building stops at the first fault that is met, or at a tree of
which a filter rejects the root.
-/

namespace PropertyTesting.Script

mutual

/-- A generator of random values. -/
inductive ArbitraryExpr where
  | kind (k : Kind)
  | positiveInt
  | negativeInt
  | stringOf (min max : Nat)
  | constant (v : Value)
  | of (vs : List Value)
  | choice (gs : List ArbitraryExpr)
  | oneOf (first : ArbitraryExpr) (rest : List ArbitraryExpr)
  | list (g : ArbitraryExpr) (min max : Nat)
  | option (g : ArbitraryExpr)
  | exhaustive (x : EnumerationExpr)
  | zip (gs : List ArbitraryExpr)
  | sequence (gs : List ArbitraryExpr)
  | map (g : ArbitraryExpr) (f : Function)
  | filter (g : ArbitraryExpr) (p : Predicate) (limit : Nat)
  | edges (g : ArbitraryExpr) (vs : List Value)
  | modify (g : ArbitraryExpr) (drop : Predicate) (f : Function)
  | flatMap (g : ArbitraryExpr) (select : Selection)
  | fromFn (d : Roll)
  | shrinking (d : Roll) (s : Reduction)
  | new (d : Roll) (edge : Option Roll)
  | fromTree (t : TreeExpr)

/-- How a value selects the generator of the second draw. -/
inductive Selection where
  | pick (gs : List ArbitraryExpr)
  | len (g : ArbitraryExpr)
  | upto
  | const (fs : List Function)

/-- A shrink tree. -/
inductive TreeExpr where
  | node (v : Value) (ts : List TreeExpr)
  | unfold (v : Value) (s : Reduction)
  | map (t : TreeExpr) (f : Function)
  | filter (t : TreeExpr) (p : Predicate)
  | sequence (ts : List TreeExpr)
  | list (ts : List TreeExpr) (min : Nat)
  | sample (g : ArbitraryExpr) (seed : UInt64)

end

/-- Why nothing was built. -/
inductive Halt where
  | fault (f : Fault)
  | rejected

/-- What is built, unless there is a reason against it. -/
abbrev Built := Except Halt

def Built.ofFault {α : Type} : Except Fault α → Built α
  | .ok a => .ok a
  | .error f => .error (.fault f)

def lengthFor (v : Value) : Nat :=
  min v.measure.toInt.toNat 50

/-- The element that a value asks for, counted round and round. -/
def pickFor {α : Type} (v : Value) (xs : List α) : Option α :=
  xs[(v.measure.toInt % xs.length).toNat]?

mutual

def ArbitraryExpr.build : ArbitraryExpr → Built (Arbitrary Value)
  | .kind k => .ok k.arbitrary
  | .positiveInt => .ok (Arbitrary.positiveInt.map .int)
  | .negativeInt => .ok (Arbitrary.negativeInt.map .int)
  | .stringOf min max => .ok ((Arbitrary.stringOf min max).map .string)
  | .constant v => .ok (.constant v)
  | .of vs => .ofFault (Arbitrary.ofValues vs)
  | .choice gs => do
    let as ← ArbitraryExpr.buildAll gs
    .ofFault (Arbitrary.choice as)
  | .oneOf first rest => do
    let a ← first.build
    let as ← ArbitraryExpr.buildAll rest
    return .oneOf a as
  | .list g min max => do
    let a ← g.build
    return (Arbitrary.list a min max).map .list
  | .option g => do
    let a ← g.build
    return (Arbitrary.option a).map Kind.ofOption
  | .exhaustive x => do
    let x ← Built.ofFault x.build
    return x.toArbitrary
  | .zip gs => do
    let as ← ArbitraryExpr.buildAll gs
    return zipWith .tuple as
  | .sequence gs => do
    let as ← ArbitraryExpr.buildAll gs
    return (Arbitrary.sequence as).map .list
  | .map g f => do
    let a ← g.build
    return a.map f.apply
  | .filter g p limit => do
    let a ← g.build
    return a.filter p.accepts limit
  | .edges g vs => do
    let a ← g.build
    return a.withEdges vs
  | .modify g drop f => do
    let a ← g.build
    return a.modifyEdges fun v => if drop.accepts v then none else some (f.apply v)
  | .flatMap g select => do
    let next ← select.build
    let a ← g.build
    return a.flatMap next
  | .fromFn d => .ok (.ofDraw d.draw)
  | .shrinking d s => .ok (.shrinking d.draw s.apply)
  | .new d edge =>
    .ok
      { sample := (Arbitrary.ofDraw d.draw).sample
        edge :=
          match edge with
          | some e => do
            let v ← e.draw
            return some v
          | none => return none }
  | .fromTree t => do
    match ← t.build with
    | some t => return .ofSampler (return .ofTree t)
    | none => .error .rejected

def ArbitraryExpr.buildAll : List ArbitraryExpr → Built (List (Arbitrary Value))
  | [] => .ok []
  | g :: gs => do
    let a ← g.build
    let as ← ArbitraryExpr.buildAll gs
    return a :: as

/-- Build the choice of the generator for the second draw. -/
def Selection.build : Selection → Built (Value → Arbitrary Value)
  | .pick gs => do
    let as ← ArbitraryExpr.buildAll gs
    return fun v => (pickFor v as).getD (.constant v)
  | .len g => do
    let a ← g.build
    return fun v => (Arbitrary.list a (lengthFor v) (lengthFor v)).map .list
  | .upto => .ok fun v => (Arbitrary.longRange 0 v.measure).map .long
  | .const fs => .ok fun v => (Arbitrary.constant v).withEdges (fs.map (·.apply v))

def TreeExpr.build : TreeExpr → Built (Option (Tree Value))
  | .node v ts => do
    let us ← TreeExpr.buildAll ts
    return some (.node v us)
  | .unfold v s => .ok (some (.unfold s.apply v))
  | .map t f => do
    let u ← t.build
    return u.map (·.map f.apply)
  | .filter t p => do
    let u ← t.build
    return u.bind (·.filter p.accepts)
  | .sequence ts => do
    let us ← TreeExpr.buildAll ts
    return some ((Tree.sequence us).map .list)
  | .list ts min => do
    let us ← TreeExpr.buildAll ts
    return some ((Tree.list us min).map .list)
  | .sample g seed => do
    let a ← g.build
    let s ← Built.ofFault (a.sample (.seeded seed)).1
    return some s.shrinks

/-- Build several trees, one after the other, without those that are rejected. -/
def TreeExpr.buildAll : List TreeExpr → Built (List (Tree Value))
  | [] => .ok []
  | t :: ts => do
    let u ← t.build
    let us ← TreeExpr.buildAll ts
    return u.toList ++ us

end

def TreeExpr.require (t : TreeExpr) : Built (Tree Value) := do
  match ← t.build with
  | some u => return u
  | none => .error .rejected

/-- A stream of test data. -/
inductive GeneratorExpr where
  | arbitrary (g : ArbitraryExpr)
  | exhaustive (x : EnumerationExpr)
  | map (s : GeneratorExpr) (f : Function)

def GeneratorExpr.build : GeneratorExpr → Built (Generator Value)
  | .arbitrary g => g.build.map .arbitrary
  | .exhaustive x => (Built.ofFault x.build).map .exhaustive
  | .map s f => s.build.map (·.map f.apply)

end PropertyTesting.Script
