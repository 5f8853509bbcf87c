import PropertyTesting.Script.Kind

/-!
Kinds of records that scripts generate: people and accounts, points and
colours. Among them are a record without fields, one with as many fields as can
be joined, one that takes another kind as a parameter, and kinds with several
variants.
-/

namespace PropertyTesting.Script.Kind

def user : Kind :=
  named "User" [("name", string), ("age", intWithin 0 120), ("active", bool)]

def point : Kind :=
  positional "Point" [int, int]

def unit : Kind :=
  single "Unit"

def status : Kind :=
  variants (single "Active") [single "Inactive"]

def color : Kind :=
  variants (single "Red")
    [single "Green", single "Blue", positional "Custom" [intWithin 0 255, bool],
      named "Named" [("name", string), ("hex", option string)]]

def wrapper (inner : Kind) : Kind :=
  named "Wrapper" [("inner", inner), ("tags", list char)]

def account : Kind :=
  named "Account" [("owner", string), ("balance", longWithin 0 1000000), ("frozen", bool)]

def transaction : Kind :=
  variants (positional "Deposit" [longWithin 1 10000])
    [positional "Withdraw" [longWithin 1 10000], single "Freeze"]

def dozen : Kind :=
  positional "Dozen"
    [bool, int, long, char, bool, int, long, char, bool, int, long, option bool]

end PropertyTesting.Script.Kind
