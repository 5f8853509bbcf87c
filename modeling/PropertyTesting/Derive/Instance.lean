import PropertyTesting.Derive.Item

/-!
The instance that is derived for a type. A body without fields is a constant;
any other body binds one arbitrary for each field to a variable and builds the
value from the variables. An enumeration is one of its variants.
-/

namespace PropertyTesting.Derive

/-- Why no instance can be derived. -/
inductive Refusal where
  | union
  | noVariants
  | tooManyFields
  | unknownKey
  | missingValue
  /-- The arguments of an attribute cannot be read. -/
  | unreadable (complaint : String)
deriving DecidableEq, Repr

def maxFields : Nat := 12

def Refusal.message : Refusal → String
  | union => "Arbitrary derive macro does not support unions"
  | noVariants => "Arbitrary cannot be derived for an empty enum"
  | tooManyFields => s!"Arbitrary supports at most {maxFields} fields"
  | unknownKey => "unsupported arb attribute, expected `with`"
  | missingValue => "expected `=`"
  | unreadable complaint => complaint

/-- The arbitrary of a field. -/
inductive FieldArbitrary where
  /-- The one that the type has by default. -/
  | standard (type : String)
  | given (type expression : String)
deriving DecidableEq, Repr

/-- What builds a value: the type itself or one of its variants. -/
inductive Target where
  | whole
  | variant (name : String)
deriving DecidableEq, Repr

/-- A variable that is handed to a field, which may have a name. -/
structure Argument where
  field : Option String
  name : String
deriving DecidableEq, Repr

/-- A value that is built from variables. -/
structure Construction where
  target : Target
  shape : Shape
  arguments : List Argument
deriving DecidableEq, Repr

/-- The arbitrary of a body. -/
inductive BodyArbitrary where
  | constant (value : Construction)
  | bind (inputs : List FieldArbitrary) (names : List String) (value : Construction)
deriving DecidableEq, Repr

/-- The arbitrary of a type. -/
inductive TypeArbitrary where
  | single (body : BodyArbitrary)
  | oneOf (first : BodyArbitrary) (rest : List BodyArbitrary)
deriving DecidableEq, Repr

/-- An instance for a type with parameters. -/
structure Instance where
  name : String
  parameters : List Parameter
  conditions : List String
  arbitrary : TypeArbitrary
deriving DecidableEq, Repr

/-- The expression that the entries of an attribute give, if any: the last one
that they give. -/
def readEntries (found : Option String) :
    List (String × Option String) → Except Refusal (Option String)
  | [] => .ok found
  | (key, value) :: entries =>
    if key = "with" then
      match value with
      | some expression => readEntries (some expression) entries
      | none => .error .missingValue
    else
      .error .unknownKey

/-- The expression that the arguments of an attribute give, if any. -/
def readArguments (found : Option String) (arguments : Arguments) :
    Except Refusal (Option String) := do
  let found ← readEntries found arguments.entries
  match arguments.complaint with
  | some complaint => throw (.unreadable complaint)
  | none => return found

/-- The expression that the attributes of a field give, if any. Attributes of
other paths are passed over. -/
def readAttributes (found : Option String) : List Attribute → Except Refusal (Option String)
  | [] => .ok found
  | a :: as =>
    if a.path = "arb" then do
      let found ← readArguments found a.arguments
      readAttributes found as
    else
      readAttributes found as

def fieldArbitrary (f : Field) : Except Refusal FieldArbitrary := do
  match ← readAttributes none f.attributes with
  | some expression => return .given f.type expression
  | none => return .standard f.type

def variableAt (i : Nat) : String :=
  s!"field_{i}"

def wire (body : Body) (names : List String) : List Argument :=
  body.fields.zipWith (fun f v => ⟨if body.shape = .named then some f.name else none, v⟩) names

def bodyArbitrary (target : Target) (body : Body) : Except Refusal BodyArbitrary := do
  if maxFields < body.fields.length then
    throw .tooManyFields
  let inputs ← body.fields.mapM fieldArbitrary
  let names := (List.range body.fields.length).map variableAt
  let value : Construction := ⟨target, body.shape, wire body names⟩
  if body.fields.isEmpty then
    return .constant value
  else
    return .bind inputs names value

def typeArbitrary : Declaration → Except Refusal TypeArbitrary
  | .structure body => do
    let body ← bodyArbitrary .whole body
    return .single body
  | .enumeration variants => do
    let bodies ← variants.mapM fun v => bodyArbitrary (.variant v.name) v.body
    match bodies with
    | first :: rest => return .oneOf first rest
    | [] => throw .noVariants
  | .union => throw .union

def arbitraryBound : String := "::kestrel::Arbitrary"

/-- A type parameter gains a bound, after those that it has. -/
def Parameter.constrain : Parameter → Parameter
  | .type name bounds => .type name (bounds ++ [arbitraryBound])
  | p => p

def derive (item : Item) : Except Refusal Instance := do
  let arbitrary ← typeArbitrary item.declaration
  return ⟨item.name, item.parameters.map Parameter.constrain, item.conditions, arbitrary⟩

end PropertyTesting.Derive
