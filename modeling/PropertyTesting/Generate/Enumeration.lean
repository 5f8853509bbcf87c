import PropertyTesting.Generate.Collection

/-!
Enumerations: finite, ordered lists of at least one value, to be gone through
in order.
-/

namespace PropertyTesting

/-- An enumeration of values, in order. -/
structure Enumeration (α : Type) where
  values : Array α
  nonempty : 0 < values.size

namespace Enumeration

variable {α β : Type}

def ofList (values : List α) : Except Fault (Enumeration α) :=
  if h : 0 < values.toArray.size then
    .ok ⟨values.toArray, h⟩
  else
    .error (.generator .nothingToEnumerate)

def size (x : Enumeration α) : Nat :=
  x.values.size

def get (x : Enumeration α) (place : Fin x.size) : α :=
  have h : place < x.values.size := place.isLt
  x.values[place]

def first (x : Enumeration α) : Fin x.size :=
  ⟨0, x.nonempty⟩

/-- The place after another. After the last one it is the first again. -/
def after (x : Enumeration α) (place : Fin x.size) : Fin x.size :=
  ⟨(place + 1) % x.size, Nat.mod_lt _ x.nonempty⟩

def map (f : α → β) (x : Enumeration α) : Enumeration β :=
  ⟨x.values.map f, by rw [Array.size_map]; exact x.nonempty⟩

def toArbitrary (x : Enumeration α) : Arbitrary α :=
  .ofArray x.values x.nonempty

def bool : Enumeration Bool :=
  ⟨#[false, true], by decide⟩

def range (lo hi : Int32) : Except Fault (Enumeration Int32) :=
  ofList ((List.range (hi.toInt - lo.toInt + 1).toNat).map fun i : Nat =>
    Int32.ofInt (lo.toInt + i))

end Enumeration

end PropertyTesting
