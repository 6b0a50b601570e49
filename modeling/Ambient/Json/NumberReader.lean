import Ambient.Json.Node

/-! Reading JSON numbers and giving them their value. -/
namespace Ambient.Json

def digitsValue (digits : List Char) : Nat :=
  digits.foldl (fun n c => n * 10 + (c.toNat - '0'.toNat)) 0

/-- The parts of a number as written. -/
structure NumberParts where
  negative : Bool
  whole : List Char
  fraction : Option (List Char)
  exponent : Option (Bool × List Char)

def maxSignificand : Nat := Nat.pow 2 64

/-- Digits taken into a significand as long as it fits 64 bits: the significand and the digits
left over. -/
def takeSignificand (significand : Nat) : List Char → Nat × List Char
  | [] => (significand, [])
  | c :: r =>
    let next := significand * 10 + (c.toNat - '0'.toNat)
    if next < maxSignificand then takeSignificand next r else (significand, c :: r)

def maxScale : Nat := Nat.pow 2 31

/-- The value of a number. One with a point, an exponent or too many digits is a floating-point
number, whose digits beyond the significand count as zeros. `stop` is the offset after it. -/
def NumberParts.value (p : NumberParts) (stop : Nat) : Except Fault Number :=
  let (wholeValue, dropped) := takeSignificand 0 p.whole
  let floating (significand : Nat) (scale : Int) : Except Fault Number :=
    match Decimal.Binary.ofScaled? significand scale with
    | some b => .ok (.floating p.negative b)
    | none => .error ⟨.numberOutOfRange, stop⟩
  if dropped = [] ∧ p.fraction.isNone ∧ p.exponent.isNone then
    if !p.negative then .ok (.whole wholeValue)
    else if 0 < wholeValue ∧ wholeValue ≤ Nat.pow 2 63 then .ok (.whole (-(wholeValue : Int)))
    else floating wholeValue 0
  else
    let fraction := p.fraction.getD []
    let (significand, unused) := takeSignificand wholeValue fraction
    let scale : Int := dropped.length - ((fraction.length - unused.length : Nat) : Int)
    match p.exponent with
    | none => floating significand scale
    | some (positive, digits) =>
      let e := digitsValue digits
      if maxScale ≤ e then
        if significand ≠ 0 ∧ positive then .error ⟨.numberOutOfRange, stop⟩
        else .ok (.floating p.negative .zero)
      else floating significand (if positive then scale + e else scale - e)

/-- A number's parts and what follows, or the fault that breaks it off. -/
abbrev PartsRead := Except Break (NumberParts × Cursor)

def digitsOf (cs : List Char) : List Char := cs.takeWhile Char.isDigit

def afterDigits (cs : List Char) : List Char := cs.dropWhile Char.isDigit

def readExponentDigits (p : NumberParts) (positive : Bool) (index : Nat) (cs : List Char) :
    PartsRead :=
  match cs with
  | [] => .error (.either .eofValue .invalidNumber index)
  | c :: r =>
    if c.isDigit then
      .ok ({ p with exponent := some (positive, digitsOf (c :: r)) },
        ⟨index + (digitsOf (c :: r)).length, afterDigits (c :: r)⟩)
    else .error (.both .invalidNumber (index + 1))

def readExponent (p : NumberParts) (index : Nat) (cs : List Char) : PartsRead :=
  match cs with
  | '+' :: r => readExponentDigits p true (index + 1) r
  | '-' :: r => readExponentDigits p false (index + 1) r
  | cs => readExponentDigits p true index cs

def readScale (p : NumberParts) (index : Nat) (cs : List Char) : PartsRead :=
  match cs with
  | c :: r =>
    if c = 'e' ∨ c = 'E' then readExponent p (index + 1) r else .ok (p, ⟨index, c :: r⟩)
  | [] => .ok (p, ⟨index, []⟩)

def readFraction (p : NumberParts) (index : Nat) (cs : List Char) : PartsRead :=
  match cs with
  | '.' :: r =>
    let stop := index + 1 + (digitsOf r).length
    if digitsOf r = [] then
      match r with
      | [] => .error (.either .eofValue .invalidNumber (index + 1))
      | _ => .error (.both .invalidNumber (index + 2))
    else readScale { p with fraction := some (digitsOf r) } stop (afterDigits r)
  | cs => readScale p index cs

def readWhole (negative : Bool) (index : Nat) (cs : List Char) : PartsRead :=
  match cs with
  | [] => .error (.either .eofValue .invalidNumber index)
  | c :: r =>
    if c = '0' then
      match r with
      | d :: _ =>
        if d.isDigit then .error (.both .invalidNumber (index + 2))
        else readFraction ⟨negative, ['0'], none, none⟩ (index + 1) r
      | [] => .ok (⟨negative, ['0'], none, none⟩, ⟨index + 1, []⟩)
    else if c.isDigit then
      readFraction ⟨negative, digitsOf (c :: r), none, none⟩
        (index + (digitsOf (c :: r)).length) (afterDigits (c :: r))
    else .error (.both .invalidNumber (index + 1))

theorem afterDigits_length_le (cs : List Char) : (afterDigits cs).length ≤ cs.length :=
  (List.dropWhile_sublist _).length_le

theorem readExponentDigits_length_le {p q : NumberParts} {positive : Bool} {index : Nat}
    {cs : List Char} {c : Cursor} (h : readExponentDigits p positive index cs = .ok (q, c)) :
    c.rest.length ≤ cs.length := by
  unfold readExponentDigits at h
  split at h
  · simp at h
  · rename_i d r
    have := afterDigits_length_le (d :: r)
    split at h <;> simp at h
    rw [← h.2]; exact this

theorem readExponent_length_le {p q : NumberParts} {index : Nat} {cs : List Char} {c : Cursor}
    (h : readExponent p index cs = .ok (q, c)) : c.rest.length ≤ cs.length := by
  unfold readExponent at h
  split at h
  all_goals
    have := readExponentDigits_length_le h
    try simp only [List.length_cons] at *
    omega

theorem readScale_length_le {p q : NumberParts} {index : Nat} {cs : List Char} {c : Cursor}
    (h : readScale p index cs = .ok (q, c)) : c.rest.length ≤ cs.length := by
  unfold readScale at h
  split at h
  · split at h
    · have := readExponent_length_le h; simp; omega
    · simp at h; simp [← h.2]
  · simp at h; simp [← h.2]

theorem readFraction_length_le {p q : NumberParts} {index : Nat} {cs : List Char} {c : Cursor}
    (h : readFraction p index cs = .ok (q, c)) : c.rest.length ≤ cs.length := by
  unfold readFraction at h
  split at h
  · rename_i r
    have := afterDigits_length_le r
    split at h
    · split at h <;> simp at h
    · have := readScale_length_le h; simp; omega
  · exact readScale_length_le h

theorem readWhole_length_lt {negative : Bool} {q : NumberParts} {index : Nat} {cs : List Char}
    {c : Cursor} (h : readWhole negative index cs = .ok (q, c)) : c.rest.length < cs.length := by
  unfold readWhole at h
  split at h
  · simp at h
  · rename_i d r
    split at h
    · split at h
      · split at h
        · simp at h
        · have := readFraction_length_le h; simp at *; omega
      · simp at h; simp [← h.2]
    · split at h
      · rename_i hd
        have h' := readFraction_length_le h
        have := afterDigits_length_le r
        simp only [afterDigits, List.dropWhile_cons, hd, ite_true] at h' this
        simp; omega
      · simp at h

def readNumber (index : Nat) (first : Char) (r : List Char) : Reading Node (first :: r) :=
  let node (p : NumberParts) (stop : Nat) : Node := .number index stop (p.value stop)
  if first = '-' then
    match h : readWhole true (index + 1) r with
    | .ok (p, c) => ⟨node p c.index, some ⟨c, by
        have := readWhole_length_lt h; simp; omega⟩⟩
    | .error b => .stop (.broken index b)
  else
    match h : readWhole false index (first :: r) with
    | .ok (p, c) => ⟨node p c.index, some ⟨c, readWhole_length_lt h⟩⟩
    | .error b => .stop (.broken index b)

end Ambient.Json
