/-! Non-negative binary floating-point numbers with 53 significant bits, and rounding to them: to
the nearest one, a tie to the even one. -/
namespace Ambient.Decimal

/-- The number `mantissa * 2 ^ exponent`. -/
structure Binary where
  mantissa : Nat
  exponent : Int
  deriving DecidableEq, Repr

namespace Binary

def zero : Binary := ⟨0, -1074⟩

def minExponent : Int := -1074

def maxExponent : Int := 971

def up (e : Int) : Nat := Nat.pow 2 e.toNat

def down (e : Int) : Nat := Nat.pow 2 (-e).toNat

/-- The nearest whole number to a quotient. -/
def nearest (num den : Nat) : Nat :=
  let q := num / den
  let r := num % den
  if 2 * r < den then q else if den < 2 * r then q + 1 else if q % 2 = 0 then q else q + 1

/-- The exponent at which a quotient has 53 bits before the point. -/
def exponentFor (num den : Nat) : Int :=
  let guess : Int := (num.log2 : Int) - (den.log2 : Int) - 52
  let low := if num * down guess < den * up guess * Nat.pow 2 52 then guess - 1 else guess
  max low minExponent

/-- A quotient rounded, or nothing if it is too large. -/
def ofRatio? (num den : Nat) : Option Binary :=
  if num = 0 then some zero
  else
    let e := exponentFor num den
    let m := nearest (num * down e) (den * up e)
    let result : Binary := if m = Nat.pow 2 53 then ⟨Nat.pow 2 52, e + 1⟩ else ⟨m, e⟩
    if maxExponent < result.exponent then none else some result

def numerator (b : Binary) : Nat := b.mantissa * up b.exponent

def denominator (b : Binary) : Nat := down b.exponent

def mul? (a b : Binary) : Option Binary :=
  ofRatio? (a.numerator * b.numerator) (a.denominator * b.denominator)

def div? (a b : Binary) : Option Binary :=
  ofRatio? (a.numerator * b.denominator) (a.denominator * b.numerator)

def pow10? (n : Nat) : Option Binary := ofRatio? (Nat.pow 10 n) 1

def divPow10 (b : Binary) (n : Nat) : Binary := ((pow10? n).bind b.div?).getD zero

def largestPower : Nat := 308

/-- Divides by the largest power of ten a number of times. -/
def divLargest (b : Binary) : Nat → Binary
  | 0 => b
  | times + 1 => if b.mantissa = 0 then b else divLargest (b.divPow10 largestPower) times

/-- A whole number times a power of ten, rounded once as a whole number and once or more for the
power; nothing if it is too large. -/
def ofScaled? (significand : Nat) (scale : Int) : Option Binary :=
  match ofRatio? significand 1 with
  | none => none
  | some b =>
    if scale < 0 then
      let times := (scale.natAbs - 1) / largestPower
      some ((b.divLargest times).divPow10 (scale.natAbs - largestPower * times))
    else if (largestPower : Int) < scale then (if b.mantissa = 0 then some b else none)
    else (pow10? scale.toNat).bind b.mul?

end Binary

end Ambient.Decimal
