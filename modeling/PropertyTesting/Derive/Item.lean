/-!
Declarations of types, as far as deriving a generator looks at them: the
parameters, and the fields of a structure or of each variant of an
enumeration. Types, bounds and expressions are texts that are only handed on.
-/

namespace PropertyTesting.Derive

/-- How the fields of a body are told apart. -/
inductive Shape where
  | named
  | positional
  | unit
deriving DecidableEq, Repr

/-- The arguments of an attribute as they are read: keys of which some have a
value, and behind them what the reader has to complain about, if anything. -/
structure Arguments where
  entries : List (String × Option String)
  complaint : Option String := none
deriving DecidableEq, Repr

/-- Entries that can all be read. -/
instance : Coe (List (String × Option String)) Arguments where
  coe entries := { entries }

structure Attribute where
  path : String
  arguments : Arguments
deriving DecidableEq, Repr

/-- A field. Its name is only looked at in a body with named fields. -/
structure Field where
  name : String
  type : String
  attributes : List Attribute
deriving DecidableEq, Repr

/-- The fields of a structure or a variant. -/
structure Body where
  shape : Shape
  fields : List Field
deriving DecidableEq, Repr

/-- A variant of an enumeration. -/
structure Variant where
  name : String
  body : Body
deriving DecidableEq, Repr

/-- What is declared. -/
inductive Declaration where
  | structure (body : Body)
  | enumeration (variants : List Variant)
  | union
deriving DecidableEq, Repr

/-- A parameter of a type. -/
inductive Parameter where
  | lifetime (name : String) (bounds : List String)
  | type (name : String) (bounds : List String)
  | const (name valueType : String)
deriving DecidableEq, Repr

namespace Parameter

def name : Parameter → String
  | lifetime name _ => name
  | type name _ => name
  | const name _ => name

def isLifetime : Parameter → Bool
  | lifetime _ _ => true
  | _ => false

end Parameter

/-- The declaration of a type. -/
structure Item where
  name : String
  parameters : List Parameter
  conditions : List String
  declaration : Declaration
deriving DecidableEq, Repr

end PropertyTesting.Derive
