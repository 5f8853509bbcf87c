import PropertyTesting.Text.Glyph

/-!
Quoted text. A character stands for itself if it can be shown and is neither
the quote nor the backslash; all others are written with a backslash, by a
letter where there is one and else by their code point.
-/

namespace PropertyTesting.Quoted

/-- Whether a character stands for itself between given quotes. -/
def isPlain (quote c : Char) : Bool :=
  c != quote && c != '\\' && Glyph.isShown c

/-- What is written behind a backslash for a character that does not stand for
itself. -/
def escape (quote c : Char) : List Char :=
  if c = quote then [c]
  else
    match c with
    | '\x00' => ['0']
    | '\t' => ['t']
    | '\r' => ['r']
    | '\n' => ['n']
    | '\\' => ['\\']
    | _ => 'u' :: '{' :: Nat.toDigits 16 c.toNat ++ ['}']

/-- Put a character between given quotes at the end of a text. -/
def writeChar (quote : Char) (out : String) (c : Char) : String :=
  if isPlain quote c then out.push c else (escape quote c).foldl String.push (out.push '\\')

def string (s : String) : String :=
  (s.foldl (writeChar '"') "\"").push '"'

def char (c : Char) : String :=
  (writeChar '\'' "'" c).push '\''

end PropertyTesting.Quoted
