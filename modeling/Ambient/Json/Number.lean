import Ambient.Decimal.Shortest

/-! JSON numbers: whole numbers that fit 64 bits, and binary floating-point numbers. -/
namespace Ambient.Json

inductive Number where
  | whole (n : Int)
  | floating (negative : Bool) (magnitude : Decimal.Binary)
  deriving DecidableEq, Repr

namespace Number

/-- Trailing zeros of the digits go into the exponent. -/
def trimZeros (digits : List Char) (exponent : Int) : List Char × Int :=
  let zeros := (digits.reverse.takeWhile (· == '0')).length
  (digits.take (digits.length - zeros), exponent + zeros)

def zeros (n : Nat) : List Char := List.replicate n '0'

def exponentText (e : Int) : List Char := 'e' :: (toString e).toList

/-- Digits and a power of ten: with a point where the first digit is at most sixteen places before
it or five after it, else with an exponent. -/
def placed (digits : List Char) (exponent : Int) : List Char :=
  let n := digits.length
  let point : Int := n + exponent
  if 0 ≤ exponent ∧ point ≤ 16 then digits ++ zeros exponent.toNat ++ ['.', '0']
  else if 0 < point ∧ point ≤ 16 then
    digits.take point.toNat ++ ['.'] ++ digits.drop point.toNat
  else if -5 < point ∧ point ≤ 0 then ['0', '.'] ++ zeros (-point).toNat ++ digits
  else match digits with
    | [d] => d :: exponentText (point - 1)
    | d :: more => d :: '.' :: more ++ exponentText (point - 1)
    | [] => []

def magnitudeText (b : Decimal.Binary) : List Char :=
  if b.mantissa = 0 then ['0', '.', '0']
  else
    let s := b.shortest
    let (digits, exponent) := trimZeros (Nat.toDigits 10 s.digits) s.exponent
    placed digits exponent

def floatingText (negative : Bool) (b : Decimal.Binary) : String :=
  String.ofList ((if negative then ['-'] else []) ++ magnitudeText b)

end Number

end Ambient.Json
