import Ambient.Json.Node

/-! Reading JSON strings. Code points beyond the basic plane are two escapes; one half without the
other is a fault where the string is used, and no more than an escape where it is passed over. -/
namespace Ambient.Json

def hexValue? (c : Char) : Option Nat :=
  if '0' ≤ c ∧ c ≤ '9' then some (c.toNat - '0'.toNat)
  else if 'a' ≤ c ∧ c ≤ 'f' then some (c.toNat - 'a'.toNat + 10)
  else if 'A' ≤ c ∧ c ≤ 'F' then some (c.toNat - 'A'.toNat + 10)
  else none

inductive Hex where
  | code (n : Nat) (rest : List Char)
  | invalid
  | short

def hexCode? (a b c d : Char) : Option Nat :=
  match hexValue? a, hexValue? b, hexValue? c, hexValue? d with
  | some a, some b, some c, some d => some (((a * 16 + b) * 16 + c) * 16 + d)
  | _, _, _, _ => none

/-- Four hexadecimal digits, of which a character of several bytes may take the place of some. -/
def readHex (cs : List Char) : Hex :=
  match cs with
  | a :: b :: c :: d :: r =>
    match hexCode? a b c d with
    | some n => .code n r
    | none => .invalid
  | cs => if Text.byteLength cs < 4 then .short else .invalid

theorem readHex_length_lt {cs r : List Char} {n : Nat} (h : readHex cs = .code n r) :
    r.length < cs.length := by
  unfold readHex at h
  split at h
  · split at h <;> simp at h
    simp [← h.2]; omega
  · split at h <;> simp at h

def isHighSurrogate (n : Nat) : Bool := 0xd800 ≤ n && n ≤ 0xdbff

def isLowSurrogate (n : Nat) : Bool := 0xdc00 ≤ n && n ≤ 0xdfff

def simpleEscape? : Char → Option Char
  | '"' => some '"'
  | '\\' => some '\\'
  | '/' => some '/'
  | 'b' => some '\x08'
  | 'f' => some '\x0c'
  | 'n' => some '\n'
  | 'r' => some '\r'
  | 't' => some '\t'
  | _ => none

/-- What the first of two surrogates makes of the text after it: the second one's code and what
follows it, or the fault if the text does not hold a second one. A text that ends too early for
either gives neither. -/
def secondSurrogate (index : Nat) (cs : List Char) : Except Fault (Option (Nat × List Char)) :=
  match cs with
  | [] => .ok none
  | '\\' :: [] => .ok none
  | '\\' :: 'u' :: r =>
    match readHex r with
    | .code n rest =>
      if isLowSurrogate n then .ok (some (n, rest)) else .error ⟨.loneSurrogate, index + 6⟩
    | _ => .ok none
  | '\\' :: _ => .error ⟨.endOfHexEscape, index + 2⟩
  | _ => .error ⟨.endOfHexEscape, index + 1⟩

theorem secondSurrogate_length_lt {index n : Nat} {cs r : List Char}
    (h : secondSurrogate index cs = .ok (some (n, r))) : r.length < cs.length := by
  unfold secondSurrogate at h
  split at h <;> try (simp at h)
  split at h <;> try (simp at h)
  rename_i hx
  have := readHex_length_lt hx
  split at h <;> simp at h
  simp [← h.2]; omega

def pairCode (high low : Nat) : Nat := (high - 0xd800) * 0x400 + (low - 0xdc00) + 0x10000

/-- The text of a string, its first fault when used, and where the string ends. -/
structure StringRead where
  text : Except Fault (List Char)
  next : Except Fault Cursor

namespace StringRead

def fault (reason : Reason) (index : Nat) : StringRead := ⟨.ok [], .error ⟨reason, index⟩⟩

def push (c : Char) (s : StringRead) : StringRead := { s with text := s.text.map (c :: ·) }

def spoil (f : Fault) (s : StringRead) : StringRead := { s with text := .error f }

end StringRead

/-- A string after its opening quote. -/
def readString (index : Nat) (cs : List Char) : StringRead :=
  match cs with
  | [] => .fault .eofString index
  | '"' :: r => ⟨.ok [], .ok ⟨index + 1, r⟩⟩
  | '\\' :: [] => .fault .eofString (index + 1)
  | '\\' :: 'u' :: r =>
    match hx : readHex r with
    | .short => .fault .eofString (index + 2 + Text.byteLength r)
    | .invalid => .fault .invalidEscape (index + 6)
    | .code n rest =>
      have := readHex_length_lt hx
      if isLowSurrogate n then (readString (index + 6) rest).spoil ⟨.loneSurrogate, index + 6⟩
      else if isHighSurrogate n then
        match h2 : secondSurrogate (index + 6) rest with
        | .error f => (readString (index + 6) rest).spoil f
        | .ok none => readString (index + 6) rest
        | .ok (some (low, after)) =>
          have := secondSurrogate_length_lt h2
          (readString (index + 12) after).push (Char.ofNat (pairCode n low))
      else (readString (index + 6) rest).push (Char.ofNat n)
  | '\\' :: c :: r =>
    match simpleEscape? c with
    | some d => (readString (index + 2) r).push d
    | none => .fault .invalidEscape (index + 2)
  | c :: r =>
    if c.toNat < 0x20 then
      ⟨.error ⟨.controlCharacter, index + 1⟩, .error ⟨.controlCharacter, index⟩⟩
    else (readString (index + c.utf8Size) r).push c
termination_by cs.length
decreasing_by all_goals simp; try omega

theorem readString_length_lt {index : Nat} {cs : List Char} {c : Cursor}
    (h : (readString index cs).next = .ok c) : c.rest.length < cs.length := by
  fun_induction readString index cs <;>
    simp_all [StringRead.fault, StringRead.push, StringRead.spoil]
  all_goals first
    | (rename_i ih; have := ih; omega)
    | omega
    | skip
  all_goals subst h; simp

/-- The fault met by using a string that breaks off with the fault `f`. -/
def StringRead.used (s : StringRead) (f : Fault) : Fault :=
  match s.text with
  | .error g => g
  | .ok _ => f

def readText {quote : Char} (index : Nat) (r : List Char) : Reading Node (quote :: r) :=
  let s := readString (index + 1) r
  match h : s.next with
  | .ok c => ⟨.text index c.index (s.text.map String.ofList), some ⟨c, by
      have := readString_length_lt h; simp; omega⟩⟩
  | .error f => .stop (.broken index ⟨s.used f, f⟩)

end Ambient.Json
