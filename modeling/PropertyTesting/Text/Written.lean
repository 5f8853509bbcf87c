import PropertyTesting.Number.Notation
import PropertyTesting.Text.Quoted

/-!
Values as text. The written form of a value is exact: it shows the quotes of
texts and the points of doubles, and values are told apart by it. The plain
text of a value is for readers, so texts and characters stand for themselves.
Inside of lists and optional values only written forms are shown.
-/

namespace PropertyTesting

/-- Values that have an exact written form. -/
class Inspect (α : Type) where
  inspect : α → String

/-- Values that have a plain text. -/
class Display (α : Type) where
  display : α → String

namespace Written

def bracketed (first last : String) (parts : List String) : String :=
  first ++ ", ".intercalate parts ++ last

def bool (b : Bool) : String :=
  if b then "true" else "false"

def integer (n : Int) : String :=
  toString n

def list (parts : List String) : String :=
  bracketed "[" "]" parts

def nothing : String :=
  "None"

def just (part : String) : String :=
  bracketed "Some(" ")" [part]

end Written

open Inspect

instance : Inspect Bool := ⟨Written.bool⟩

instance : Inspect Int32 := ⟨fun n => Written.integer n.toInt⟩

instance : Inspect Int64 := ⟨fun n => Written.integer n.toInt⟩

instance : Inspect Double := ⟨DoubleNotation.exact.write⟩

instance : Inspect Char := ⟨Quoted.char⟩

instance : Inspect String := ⟨Quoted.string⟩

instance {α : Type} [Inspect α] : Inspect (List α) :=
  ⟨fun as => Written.list (as.map inspect)⟩

instance {α : Type} [Inspect α] : Inspect (Option α) :=
  ⟨fun
    | none => Written.nothing
    | some a => Written.just (inspect a)⟩

instance : Display Bool := ⟨inspect⟩

instance : Display Int32 := ⟨inspect⟩

instance : Display Int64 := ⟨inspect⟩

instance : Display Double := ⟨DoubleNotation.plain.write⟩

instance : Display Char := ⟨Char.toString⟩

instance : Display String := ⟨id⟩

instance {α : Type} [Inspect α] : Display (List α) := ⟨inspect⟩

instance {α : Type} [Inspect α] : Display (Option α) := ⟨inspect⟩

end PropertyTesting
