import PropertyTesting.Text.Written

/-!
Values of scripts. A script describes generators, trees and predicates as
data, so its values are of one type that holds every kind of them. The kind is
part of the value.
-/

namespace PropertyTesting.Script

/-- How the parts of a record are told apart. -/
inductive Labels where
  | named (names : List String)
  | positional
deriving DecidableEq, Repr

/-- A value of any kind. -/
inductive Value where
  | bool (b : Bool)
  | int (n : Int32)
  | long (n : Int64)
  | double (x : Double)
  | char (c : Char)
  | string (s : String)
  | list (items : List Value)
  | tuple (items : List Value)
  | nothing
  | just (v : Value)
  | record (name : String) (labels : Labels) (items : List Value)
deriving Inhabited

namespace Value

open Inspect Display

def writeRecord (name : String) (labels : Labels) (parts : List String) : String :=
  match labels, parts with
  | _, [] => name
  | .named names, parts =>
    Written.bracketed (name ++ " \x7b ") " \x7d"
      (names.zipWith (fun label part => label ++ ": " ++ part) parts)
  | .positional, parts => Written.bracketed (name ++ "(") ")" parts

mutual

def write : Value → String
  | bool b => inspect b
  | int n => inspect n
  | long n => inspect n
  | double x => inspect x
  | char c => inspect c
  | string s => inspect s
  | list items => Written.list (writeAll items)
  | tuple [v] => Written.bracketed "(" ",)" [write v]
  | tuple items => Written.bracketed "(" ")" (writeAll items)
  | nothing => Written.nothing
  | just v => Written.just (write v)
  | record name labels items => writeRecord name labels (writeAll items)

def writeAll : List Value → List String
  | [] => []
  | v :: vs => write v :: writeAll vs

end

instance : Inspect Value := ⟨write⟩

/-- The plain text of a value: texts stand for themselves, and doubles have no
exponent. -/
def plain : Value → String
  | double x => display x
  | char c => display c
  | string s => display s
  | v => v.write

instance : Display Value := ⟨plain⟩

mutual

/-- Equality of values of the same kind. Doubles are compared as numbers. -/
def same : Value → Value → Bool
  | bool a, bool b => a == b
  | int a, int b => a == b
  | long a, long b => a == b
  | double a, double b => a.sameNumber b
  | char a, char b => a == b
  | string a, string b => a == b
  | list as, list bs => sameAll as bs
  | tuple as, tuple bs => sameAll as bs
  | nothing, nothing => true
  | just a, just b => same a b
  | record m k as, record n l bs => m == n && k == l && sameAll as bs
  | _, _ => false

def sameAll : List Value → List Value → Bool
  | [], [] => true
  | a :: as, b :: bs => same a b && sameAll as bs
  | _, _ => false

end

instance : BEq Value := ⟨same⟩

/-- The parts of a list, a tuple or a record. -/
def items? : Value → Option (List Value)
  | list items => some items
  | tuple items => some items
  | record _ _ items => some items
  | _ => none

def measure : Value → Int64
  | bool b => if b then 1 else 0
  | int n => n.toInt64
  | long n => n
  | double x => x.toLong
  | char c => Int64.ofNat c.toNat
  | string s => Int64.ofNat s.length
  | list items => Int64.ofNat items.length
  | tuple items => Int64.ofNat items.length
  | nothing => -1
  | just v => v.measure
  | record _ _ items => Int64.ofNat items.length

end Value

end PropertyTesting.Script
