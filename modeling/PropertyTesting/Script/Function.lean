import PropertyTesting.Script.Value
import PropertyTesting.Run.Minimize

/-!
Functions and predicates of scripts. A function that does not apply to a value
leaves it as it is. A predicate is true, false, or breaks off with a message.
-/

namespace PropertyTesting.Script

/-- Arithmetic with a fixed operand. -/
inductive Arithmetic where
  | add
  | mul
  | div
  | rem
deriving DecidableEq, Repr

namespace Arithmetic

/-- Arithmetic wraps around; division goes towards zero, and a remainder has
the sign of the dividend. -/
def apply : Arithmetic → Int64 → Int64 → Int64
  | add, a, b => a + b
  | mul, a, b => a * b
  | div, a, b => a / b
  | rem, a, b => a % b

end Arithmetic

/-- A function on values. -/
inductive Function where
  | id
  | arithmetic (op : Arithmetic) (operand : Int64)
  | abs
  | const (v : Value)
  | measure
  | int
  | just
  | pair
  | wrap
  | plain
  | write
  | nth (i : Nat)
  | sum
  | max
  | list
  | concat
  | seq (fs : List Function)

namespace Function

/-- Apply a function to the number that an integer is, and cut the result to
the width of the integer. -/
def onNumber (f : Int64 → Int64) : Value → Value
  | .int n => .int (f n.toInt64).toInt32
  | .long n => .long (f n)
  | v => v

/-- Apply a function to the parts of a value that has parts. -/
def onItems (f : List Value → Value) (v : Value) : Value :=
  match v.items? with
  | some items => f items
  | none => v

/-- The largest of some numbers, or zero if there are none. -/
def largest : List Int64 → Int64
  | [] => 0
  | n :: ns => ns.foldl (fun a b => if a < b then b else a) n

mutual

def apply : Function → Value → Value
  | id, v => v
  | arithmetic op operand, v => onNumber (op.apply · operand) v
  | abs, v => onNumber Int64.abs v
  | const c, _ => c
  | measure, v => .long v.measure
  | int, v => .int v.measure.toInt32
  | just, v => .just v
  | pair, v => .tuple [v, v]
  | wrap, v => .list [v]
  | plain, v => .string v.plain
  | write, v => .string v.write
  | nth i, v => onItems (fun items => items[i]?.getD v) v
  | sum, v => onItems (fun items => .long (items.foldl (fun n item => n + item.measure) 0)) v
  | max, v => onItems (fun items => .long (largest (items.map Value.measure))) v
  | list, v => onItems .list v
  | concat, v => onItems (fun items => .string (String.join (items.map Value.plain))) v
  | seq fs, v => applyAll fs v

def applyAll : List Function → Value → Value
  | [], v => v
  | f :: fs, v => applyAll fs (f.apply v)

end

end Function

/-- A comparison with a fixed operand. -/
inductive Comparison where
  | lt
  | le
  | gt
  | ge
  | eq
  | ne
deriving DecidableEq, Repr

def Comparison.holds : Comparison → Int64 → Int64 → Bool
  | lt, a, b => a < b
  | le, a, b => a ≤ b
  | gt, a, b => b < a
  | ge, a, b => b ≤ a
  | eq, a, b => a == b
  | ne, a, b => a != b

/-- How a predicate breaks off. -/
inductive Panic where
  | fixed
  /-- With a message that is followed by the value. -/
  | withValue (message : String)
  /-- With something that is no text. -/
  | textless
deriving DecidableEq, Repr

/-- The message of a predicate that breaks off at a value. -/
def Panic.message (v : Value) : Panic → String
  | fixed => "static message"
  | withValue message => s!"{message}: {v.write}"
  | textless => "non-string panic payload"

/-- A predicate on values. -/
inductive Predicate where
  | constant (b : Bool)
  | compare (op : Comparison) (operand : Int64)
  | rem (modulus result : Int64)
  | is (v : Value)
  | has (s : String)
  | ends (s : String)
  | not (p : Predicate)
  | all (ps : List Predicate)
  | any (ps : List Predicate)
  | everyItem (p : Predicate)
  | someItem (p : Predicate)
  | panic (when : Predicate) (kind : Panic)
  | of (f : Function) (p : Predicate)

namespace Predicate

/-- A truth value, unless a predicate broke off with a message. -/
abbrev Result := Except String Bool

/-- Whether a test holds of all values, looked at in turn. -/
def forAll (test : Value → Result) : List Value → Result
  | [] => .ok true
  | v :: vs =>
    match test v with
    | .ok true => forAll test vs
    | result => result

/-- Whether a test holds of a value, looked at in turn. -/
def forSome (test : Value → Result) : List Value → Result
  | [] => .ok false
  | v :: vs =>
    match test v with
    | .ok false => forSome test vs
    | result => result

def occurs (part : List Char) : List Char → Bool
  | [] => part.isEmpty
  | c :: cs => part.isPrefixOf (c :: cs) || occurs part cs

mutual

def eval : Predicate → Value → Result
  | constant b, _ => .ok b
  | compare op operand, v => .ok (op.holds v.measure operand)
  | rem modulus result, v => .ok (v.measure % modulus == result)
  | is w, v => .ok (v == w)
  | has s, v => .ok (occurs s.toList v.plain.toList)
  | ends s, v => .ok (s.toList.isSuffixOf v.plain.toList)
  | not p, v => (p.eval v).map (!·)
  | all ps, v => evalAll ps v
  | any ps, v => evalAny ps v
  | everyItem p, v =>
    match v.items? with
    | some items => forAll p.eval items
    | none => .ok true
  | someItem p, v =>
    match v.items? with
    | some items => forSome p.eval items
    | none => .ok false
  | panic when kind, v =>
    match when.eval v with
    | .ok true => .error (kind.message v)
    | .ok false => .ok true
    | .error message => .error message
  | of f p, v => p.eval (f.apply v)

def evalAll : List Predicate → Value → Result
  | [], _ => .ok true
  | p :: ps, v =>
    match p.eval v with
    | .ok true => evalAll ps v
    | result => result

def evalAny : List Predicate → Value → Result
  | [], _ => .ok false
  | p :: ps, v =>
    match p.eval v with
    | .ok false => evalAny ps v
    | result => result

end

def verdict : Result → Verdict
  | .ok true => .pass
  | .ok false => .fail none
  | .error message => .fail (some message)

def check (p : Predicate) (v : Value) : Verdict :=
  verdict (p.eval v)

/-- Whether a value is accepted. A predicate that breaks off accepts nothing. -/
def accepts (p : Predicate) (v : Value) : Bool :=
  p.check v == .pass

end Predicate

end PropertyTesting.Script
