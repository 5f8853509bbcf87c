import PropertyTesting.Derive.Instance
import PropertyTesting.Text.Blank

/-!
The text of a derived instance, without any blanks. Lifetimes come before all
other parameters, and a parameter keeps the comma that stands behind it.
-/

namespace PropertyTesting.Derive

def separated (separator : String) (parts : List String) : String :=
  separator.intercalate parts

/-- Texts with a comma behind each of them. -/
def terminated (parts : List String) : String :=
  String.join (parts.map (· ++ ","))

def FieldArbitrary.print : FieldArbitrary → String
  | standard type => "<" ++ type ++ " as ::kestrel::Arbitrary>::arbitrary()"
  | given type expression =>
    "\x7b let arb: ::kestrel::Arb<" ++ type ++ "> = " ++ expression ++ "; arb \x7d"

def Target.print : Target → String
  | whole => "Self"
  | variant name => "Self::" ++ name

/-- A variable, behind the name of the field that it is handed to. -/
def Argument.print (a : Argument) : String :=
  match a.field with
  | some field => field ++ ": " ++ a.name
  | none => a.name

def Construction.print (c : Construction) : String :=
  let arguments := separated ", " (c.arguments.map Argument.print)
  match c.shape with
  | .named => c.target.print ++ " \x7b " ++ arguments ++ " \x7d"
  | .positional => c.target.print ++ "(" ++ arguments ++ ")"
  | .unit => c.target.print

def BodyArbitrary.print : BodyArbitrary → String
  | constant value => "::kestrel::Arb::constant(" ++ value.print ++ ")"
  | bind inputs names value =>
    "::kestrel::Arb::bind((" ++ terminated (inputs.map FieldArbitrary.print) ++ "), |("
      ++ terminated names ++ ")| " ++ value.print ++ ")"

def TypeArbitrary.print : TypeArbitrary → String
  | single body => body.print
  | oneOf first rest =>
    "::kestrel::Arb::one_of(" ++ first.print ++ ", ::std::vec!["
      ++ separated ", " (rest.map BodyArbitrary.print) ++ "])"

def printBounds (name : String) (bounds : List String) : String :=
  if bounds.isEmpty then name else name ++ ": " ++ separated " + " bounds

def Parameter.print : Parameter → String
  | .lifetime name bounds => printBounds name bounds
  | .type name bounds => printBounds name bounds
  | .const name valueType => "const " ++ name ++ ": " ++ valueType

/-- Parameters, each with a mark whether a comma stands behind it. -/
def withCommas : List Parameter → List (Parameter × Bool)
  | [] => []
  | [p] => [(p, false)]
  | p :: ps => (p, true) :: withCommas ps

/-- Write parameters with their commas. A comma is put in where two would meet
without one. -/
def joinParameters (write : Parameter → String) : Bool → List (Parameter × Bool) → String
  | _, [] => ""
  | separate, (p, comma) :: ps =>
    (if separate then "," else "") ++ write p ++ (if comma then "," else "")
      ++ joinParameters write (!comma) ps

def printParameters (write : Parameter → String) (ps : List Parameter) : String :=
  if ps.isEmpty then
    ""
  else
    let (lifetimes, others) := (withCommas ps).partition (·.1.isLifetime)
    "<" ++ joinParameters write false (lifetimes ++ others) ++ ">"

def printConditions (conditions : List String) : String :=
  if conditions.isEmpty then "" else " where " ++ separated ", " conditions

def Instance.print (i : Instance) : String :=
  Blank.strip <|
    "impl" ++ printParameters Parameter.print i.parameters ++ " ::kestrel::Arbitrary for "
      ++ i.name ++ printParameters Parameter.name i.parameters ++ printConditions i.conditions
      ++ " \x7b fn arbitrary() -> ::kestrel::Arb<Self> \x7b " ++ i.arbitrary.print ++ " \x7d \x7d"

end PropertyTesting.Derive
