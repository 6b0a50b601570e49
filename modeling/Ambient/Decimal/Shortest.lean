import Ambient.Decimal.Binary

/-! The shortest decimal that reads back as a binary number, and of several the nearest one. -/
namespace Ambient.Decimal

/-- The number `digits * 10 ^ exponent`. -/
structure Scaled where
  digits : Nat
  exponent : Int
  deriving DecidableEq, Repr

namespace Binary

/-- Whether `digits * 10 ^ exponent` rounds to `b`: it lies between the midpoints to the
neighbours, ends included when the mantissa is even. Everything is scaled to whole numbers. -/
def readsBack (b : Binary) (s : Scaled) : Bool :=
  let tens := Nat.pow 10 s.exponent.toNat
  let tenths := Nat.pow 10 (-s.exponent).toNat
  let value := 4 * s.digits * tens * down b.exponent
  let unit := up b.exponent * tenths
  let lowGap := if b.mantissa = Nat.pow 2 52 ∧ minExponent < b.exponent then 1 else 2
  let low := (4 * b.mantissa - lowGap) * unit
  let high := (4 * b.mantissa + 2) * unit
  if b.mantissa % 2 = 0 then low ≤ value && value ≤ high else low < value && value < high

/-- The multiple of `10 ^ exponent` next to `b` that reads back, the nearer one if both do. -/
def onGrid? (b : Binary) (exponent : Int) : Option Scaled :=
  let num := b.numerator * Nat.pow 10 (-exponent).toNat
  let den := b.denominator * Nat.pow 10 exponent.toNat
  let below : Scaled := ⟨num / den, exponent⟩
  let above : Scaled := ⟨num / den + 1, exponent⟩
  match readsBack b below, readsBack b above with
  | true, true => some (if nearest num den = num / den then below else above)
  | true, false => some below
  | false, true => some above
  | false, false => none

/-- The number of decimal digits before the point, or how far after it the first one is. -/
def magnitude (b : Binary) : Int :=
  let n := b.numerator
  let d := b.denominator
  if d ≤ n then ((Nat.toDigits 10 (n / d)).length : Int)
  else
    let k := (Nat.toDigits 10 (d / n)).length
    if d ≤ n * Nat.pow 10 (k - 1) then 2 - (k : Int) else 1 - (k : Int)

def search (b : Binary) (magnitude : Int) : Nat → Nat → Scaled
  | 0, _ => ⟨b.numerator / b.denominator, 0⟩
  | left + 1, count =>
    match onGrid? b (magnitude - count) with
    | some s => s
    | none => search b magnitude left (count + 1)

def shortest (b : Binary) : Scaled :=
  if b.mantissa = 0 then ⟨0, 0⟩ else search b b.magnitude 17 1

end Binary

end Ambient.Decimal
