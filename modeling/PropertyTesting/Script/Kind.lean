import PropertyTesting.Generate.Collection
import PropertyTesting.Generate.Join
import PropertyTesting.Generate.Scalar
import PropertyTesting.Script.Value

/-!
Kinds of values and the arbitrary that each kind has by default. A record joins
the arbitraries of its fields, so that it shrinks one field at a time; a kind
with variants picks one of them for every draw.
-/

namespace PropertyTesting.Script

def zipWith (f : List Value → Value) (as : List (Arbitrary Value)) : Arbitrary Value :=
  (Arbitrary.zip (Inputs.ofList as)).map fun row => f (Tuple.toList as row)

/-- A kind of values. -/
inductive Kind where
  | bool
  | int
  | long
  | double
  | char
  | string
  | intWithin (lo hi : Int32)
  | longWithin (lo hi : Int64)
  | list (item : Kind)
  | option (item : Kind)
  | tuple (items : List Kind)
  | record (name : String) (labels : Labels) (fields : List Kind)
  | variants (first : Kind) (rest : List Kind)

namespace Kind

def ofOption : Option Value → Value
  | none => .nothing
  | some v => .just v

mutual

def arbitrary : Kind → Arbitrary Value
  | bool => Arbitrary.bool.map .bool
  | int => Arbitrary.int.map .int
  | long => Arbitrary.long.map .long
  | double => Arbitrary.double.map .double
  | char => Arbitrary.char.map .char
  | string => Arbitrary.string.map .string
  | intWithin lo hi => (Arbitrary.intRange lo hi).map .int
  | longWithin lo hi => (Arbitrary.longRange lo hi).map .long
  | list item => (Arbitrary.list item.arbitrary 0 100).map .list
  | option item => (Arbitrary.option item.arbitrary).map ofOption
  | tuple items => zipWith .tuple (arbitraries items)
  | record name labels [] => .constant (.record name labels [])
  | record name labels fields => zipWith (.record name labels) (arbitraries fields)
  | variants first rest => .oneOf first.arbitrary (arbitraries rest)

def arbitraries : List Kind → List (Arbitrary Value)
  | [] => []
  | k :: ks => k.arbitrary :: arbitraries ks

end

def named (name : String) (fields : List (String × Kind)) : Kind :=
  record name (.named (fields.map (·.1))) (fields.map (·.2))

/-- A record whose fields are told apart by their places. -/
def positional (name : String) (fields : List Kind) : Kind :=
  record name .positional fields

def single (name : String) : Kind :=
  record name .positional []

end Kind

end PropertyTesting.Script
