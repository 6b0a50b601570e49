import Ambient.Text.Graphic

/-! Text shown inside quotes in a message: the quote and the backslash get a backslash, the common
controls their letter, and every other character that is not shown as itself its code point. -/
namespace Ambient.Text

def hexDigits (n : Nat) : List Char := Nat.toDigits 16 n

def quotedChar (quote c : Char) : List Char :=
  if c = '\n' then ['\\', 'n']
  else if c = '\t' then ['\\', 't']
  else if c = '\r' then ['\\', 'r']
  else if c = Char.ofNat 0 then ['\\', '0']
  else if c = '\\' ∨ c = quote then ['\\', c]
  else if extendsGrapheme c || !isPrintable c then
    ['\\', 'u', '\x7b'] ++ hexDigits c.toNat ++ ['\x7d']
  else [c]

def quoted (s : String) : String :=
  String.ofList ('"' :: s.toList.flatMap (quotedChar '"') ++ ['"'])

end Ambient.Text
