import Ambient.Text.Blank

/-! Enum initializers in the declaration language. An integer literal loses its suffix and its
leading zeros, which would make it octal; hexadecimal and binary digits stay. Anything else stays as
it was written, without white space around it. -/
namespace Ambient.Initializer

def isSuffix (c : Char) : Bool := c == 'u' || c == 'U' || c == 'l' || c == 'L'

def isLiteralPart (c : Char) : Bool := c.isAlpha || c.isDigit || c == '_'

def isRadixMark : List Char → Bool
  | '0' :: c :: _ => c == 'x' || c == 'X' || c == 'b' || c == 'B'
  | _ => false

/-- The sign and what follows it. -/
def splitSign : List Char → List Char × List Char
  | '-' :: r => (['-'], Text.trimStart r)
  | cs => ([], cs)

def cleanChars (cs : List Char) : List Char :=
  let value := Text.trim cs
  let (sign, digits) := splitSign value
  let literal := Text.dropEndWhile isSuffix digits
  if !(digits.head?.any Char.isDigit) || !literal.all isLiteralPart then value
  else if isRadixMark literal then sign ++ literal
  else match literal.dropWhile (· == '0') with
    | [] => ['0']
    | rest => sign ++ rest

def clean (value : String) : String := String.ofList (cleanChars value.toList)

end Ambient.Initializer
