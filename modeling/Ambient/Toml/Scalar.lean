import Ambient.Decimal.Binary
import Ambient.Toml.Text

/-! Dates, times and numbers of TOML. Only that they are well formed and in range matters here, not
which ones they are. -/
namespace Ambient.Toml

def digitsValue (digits : List Char) : Nat :=
  digits.foldl (fun n c => n * 10 + (c.toNat - '0'.toNat)) 0

/-- A number of exactly so many digits. -/
def readDigits (count : Nat) : Reader Nat := fun cs =>
  let digits := cs.take count
  if digits.length = count ∧ digits.all Char.isDigit then
    some (digitsValue digits, cs.drop count)
  else none

def readInRange (count low high : Nat) : Reader Nat := fun cs =>
  (readDigits count cs).filter fun (n, _) => low ≤ n && n ≤ high

def readChar (c : Char) : Reader Unit
  | d :: r => if d = c then some ((), r) else none
  | [] => none

def isLeapYear (year : Nat) : Bool := year % 4 == 0 && (year % 100 != 0 || year % 400 == 0)

def daysIn (year month : Nat) : Nat :=
  if month = 2 then (if isLeapYear year then 29 else 28)
  else if month ∈ [4, 6, 9, 11] then 30 else 31

/-- The text after a date, whose year has been read. -/
def afterDate? (year : Nat) (cs : List Char) : Option (List Char) := do
  let (month, r) ← readInRange 2 1 12 cs
  let (_, r) ← readChar '-' r
  let (_, r) ← readInRange 2 1 (daysIn year month) r
  return r

/-- The text after minutes, seconds and a fraction of them. -/
def afterMinutes? (cs : List Char) : Option (List Char) := do
  let (_, r) ← readInRange 2 0 59 cs
  let (_, r) ← readChar ':' r
  let (_, r) ← readInRange 2 0 60 r
  match r with
  | '.' :: d :: rest => return if d.isDigit then rest.dropWhile Char.isDigit else r
  | _ => return r

def startsTime (cs : List Char) : Bool :=
  match readInRange 2 0 23 cs with
  | some (_, ':' :: _) => true
  | _ => false

def afterOffset? (cs : List Char) : Option (List Char) :=
  match cs with
  | 'Z' :: r | 'z' :: r => some r
  | '+' :: r | '-' :: r => do
    let (_, r) ← readInRange 2 0 23 r
    let (_, r) ← readChar ':' r
    let (_, r) ← readInRange 2 0 59 r
    return r
  | cs => some cs

/-- The text after the time that may follow a date. -/
def afterDateTime? (cs : List Char) : Option (List Char) :=
  match cs with
  | c :: r =>
    if (c = 'T' ∨ c = 't' ∨ c = ' ') ∧ startsTime r then
      (afterMinutes? (r.drop 3)).bind afterOffset?
    else some (c :: r)
  | [] => some []

/-- Digits among which single underscores may stand between two. -/
def readSeparated (isDigit : Char → Bool) : Reader (List Char)
  | [] => none
  | [c] => if isDigit c then some ([c], []) else none
  | c :: d :: r =>
    if isDigit c then
      if d = '_' then prepend c (readSeparated isDigit r)
      else if isDigit d then prepend c (readSeparated isDigit (d :: r))
      else some ([c], d :: r)
    else none

def maxInteger : Nat := Nat.pow 2 63

/-- The text after an integer in another base, which fits 64 bits. -/
def afterRadix? (radix : Nat) (cs : List Char) : Option (List Char) :=
  let isDigit c := (Json.hexValue? c).any (· < radix)
  (readSeparated isDigit cs).bind fun (digits, r) =>
    let value := digits.foldl (fun n c => n * radix + (Json.hexValue? c).getD 0) 0
    if value < maxInteger then some r else none

/-- A whole number without needless zeros in front. -/
def readWhole : Reader (List Char)
  | '0' :: r => some (['0'], r)
  | cs => readSeparated Char.isDigit cs

def readExponent (cs : List Char) : Option (Int × List Char) :=
  let (sign, r) : Int × List Char := match cs with
    | '-' :: r => (-1, r)
    | '+' :: r => (1, r)
    | cs => (1, cs)
  (readSeparated Char.isDigit r).map fun (digits, rest) => (sign * digitsValue digits, rest)

/-- Whether digits and a power of ten are too large for a floating-point number. -/
def isTooLarge (digits : List Char) (scale : Int) : Bool :=
  let significant := digits.dropWhile (· == '0')
  if significant = [] then false
  else if 400 < significant.length + scale then true
  else if significant.length + scale < 0 then false
  else
    let n := digitsValue significant
    (Decimal.Binary.ofRatio? (n * Nat.pow 10 scale.toNat) (Nat.pow 10 (-scale).toNat)).isNone

/-- The text after a number in base ten. A negative number may be too large, a positive one not. -/
def afterDecimal? (negative : Bool) (cs : List Char) : Option (List Char) := do
  let (whole, r) ← readWhole cs
  let (fraction, r) ← match r with
    | '.' :: r => readSeparated Char.isDigit r
    | r => some ([], r)
  let (exponent, r', isFloat) ← match r with
    | 'e' :: r | 'E' :: r => (readExponent r).map fun (e, r) => (e, r, true)
    | r => some (0, r, !fraction.isEmpty)
  if isFloat then
    if !negative && isTooLarge (whole ++ fraction) (exponent - fraction.length) then none
    else return r'
  else
    let value := digitsValue whole
    if value < maxInteger ∨ (negative ∧ value = maxInteger) then return r' else none

def afterWord? (word : String) (cs : List Char) : Option (List Char) :=
  if word.toList.isPrefixOf cs then some (cs.drop word.toList.length) else none

def afterSigned? (negative : Bool) (cs : List Char) : Option (List Char) :=
  ((afterWord? "inf" cs).or (afterWord? "nan" cs)).or (afterDecimal? negative cs)

/-- The text after a date, a time or a number. -/
def afterNumber? (cs : List Char) : Option (List Char) :=
  match cs with
  | '+' :: r => afterSigned? false r
  | '-' :: r => afterSigned? true r
  | cs =>
    match readDigits 4 cs with
    | some (year, '-' :: r) => (afterDate? year r).bind afterDateTime?
    | _ =>
      if startsTime cs then afterMinutes? (cs.drop 3)
      else match cs with
        | '0' :: 'x' :: r => afterRadix? 16 r
        | '0' :: 'o' :: r => afterRadix? 8 r
        | '0' :: 'b' :: r => afterRadix? 2 r
        | cs => afterDecimal? false cs

end Ambient.Toml
