import PropertyTesting.Generate.Enumeration
import PropertyTesting.Script.Function
import PropertyTesting.Shrink.Double
import PropertyTesting.Shrink.Text

/-!
What generators and trees are made from: single draws, one-step shrink
functions, and enumerations.
-/

namespace PropertyTesting.Script

/-- A draw that makes a value. -/
inductive Roll where
  | range (lo hi : Int64)
  | u32
  | u64
  | fork
  | f64
  | bool

namespace Roll

def draw : Roll → Draw Value
  | range lo hi =>
    if h : lo.toInt ≤ hi.toInt then do
      let n ← Draw.integer .wide h
      return .long (Int64.ofInt n)
    else
      return .long lo
  | u32 => do
    let w ← Draw.halfWord
    return .long (Int64.ofNat w.toNat)
  | u64 => do
    let w ← Draw.word
    return .long w.toInt64
  | fork => do
    let child ← Draw.fork
    return .long child.next.1.toInt64
  | f64 => do
    let n ← Draw.fraction
    return .double (Double.ofFraction n)
  | bool => do
    let b ← Draw.bool
    return .bool b

end Roll

/-- A one-step shrink function. -/
inductive Reduction where
  | none
  | same
  | fixed (vs : List Value)
  | dec
  | halves
  | cycle (modulus : Int64)
  | towards (destination : Int64)
  | char
  | string (min : Nat)
  | double
  | bool

def Reduction.apply : Reduction → Value → Row Value
  | none, _ => .nil
  | same, v => .ofList [v]
  | fixed vs, _ => .ofList vs
  | dec, v => .ofList (if 0 < v.measure then [.long (v.measure - 1)] else [])
  | halves, v => .ofList (([0, v.measure / 2].filter (· != v.measure)).map .long)
  | cycle modulus, v => .ofList [.long ((v.measure + 1) % modulus)]
  | towards destination, .long n => .ofList ((Shrink.long destination n).map .long)
  | char, .char c => .ofList ((Shrink.char c).map .char)
  | string min, .string s => (Shrink.string min s).map .string
  | double, .double x => .ofList ((Shrink.double x).map .double)
  | bool, .bool b => .ofList ((Shrink.bool b).map .bool)
  | _, _ => .nil

/-- An enumeration. -/
inductive EnumerationExpr where
  | values (vs : List Value)
  | bool
  | range (lo hi : Int32)
  | map (x : EnumerationExpr) (f : Function)

def EnumerationExpr.build : EnumerationExpr → Except Fault (Enumeration Value)
  | values vs => Enumeration.ofList vs
  | bool => .ok (Enumeration.bool.map .bool)
  | range lo hi => (Enumeration.range lo hi).map (·.map .int)
  | map x f => x.build.map (·.map f.apply)

end PropertyTesting.Script
