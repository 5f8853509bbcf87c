/-!
Blank characters: those with the White_Space property of Unicode.
-/

namespace PropertyTesting.Blank

/-- The blank characters, in ascending ranges. -/
def ranges : List (Nat × Nat) :=
  [(0x9, 0xd), (0x20, 0x20), (0x85, 0x85), (0xa0, 0xa0), (0x1680, 0x1680), (0x2000, 0x200a),
    (0x2028, 0x2029), (0x202f, 0x202f), (0x205f, 0x205f), (0x3000, 0x3000)]

def isBlank (c : Char) : Bool :=
  ranges.any fun (first, last) => first ≤ c.toNat && c.toNat ≤ last

/-- Text without the blanks at its ends. -/
def trim (cs : List Char) : List Char :=
  ((cs.dropWhile isBlank).reverse.dropWhile isBlank).reverse

/-- Text without any blanks. -/
def strip (s : String) : String :=
  String.ofList (s.toList.filter fun c => !isBlank c)

end PropertyTesting.Blank
