import Ambient.Json.Fault

/-! JSON documents as trees that keep byte offsets. A document that stops being JSON is a tree as
far as it goes and ends in a broken node. Some things are faults only where a value is used and not
where it is passed over: a lone surrogate, a number out of range. They are kept with the value. -/
namespace Ambient.Json

/-- What a reader meets at a fault, if the value is used and if it is passed over. -/
structure Break where
  used : Fault
  passed : Fault
  deriving DecidableEq, Repr

def Break.both (reason : Reason) (index : Nat) : Break :=
  ⟨⟨reason, index⟩, ⟨reason, index⟩⟩

def Break.either (used passed : Reason) (index : Nat) : Break :=
  ⟨⟨used, index⟩, ⟨passed, index⟩⟩

/-- How a list or object ends: at a bracket, at a fault, or inside its last entry. -/
inductive Ending where
  | closed (stop : Nat)
  | broken (b : Break)
  | inside
  deriving DecidableEq, Repr

structure FieldOf (τ : Type) where
  key : Except Fault String
  /-- The offset of what follows the key. -/
  next : Nat
  value : τ
  deriving Repr

inductive Node where
  | null (start stop : Nat)
  | bool (start stop : Nat) (b : Bool)
  | number (start stop : Nat) (value : Except Fault Number)
  | text (start stop : Nat) (value : Except Fault String)
  | array (start : Nat) (items : List Node) (ending : Ending)
  | object (start : Nat) (fields : List (FieldOf Node)) (ending : Ending)
  | broken (start : Nat) (b : Break)
  deriving Repr, Inhabited

abbrev Field := FieldOf Node

/-- The offset of a value's first character. -/
def Node.start : Node → Nat
  | null start _ | bool start _ _ | number start _ _ | text start _ _ | array start _ _
  | object start _ _ | broken start _ => start

/-- A place in a document: the bytes before it and the text from it on. -/
structure Cursor where
  index : Nat
  rest : List Char
  deriving Repr

def isSpace (c : Char) : Bool := c == ' ' || c == '\n' || c == '\t' || c == '\r'

def skipSpace (index : Nat) : List Char → Cursor
  | [] => ⟨index, []⟩
  | c :: r => if isSpace c then skipSpace (index + 1) r else ⟨index, c :: r⟩

theorem skipSpace_length_le (index : Nat) (cs : List Char) :
    (skipSpace index cs).rest.length ≤ cs.length := by
  induction cs generalizing index with
  | nil => simp [skipSpace]
  | cons c r ih =>
    simp only [skipSpace]
    split
    · have := ih (index + 1); simp; omega
    · simp

/-- A value together with where to go on, if that is possible. -/
structure Reading (α : Type) (cs : List Char) where
  value : α
  next : Option { c : Cursor // c.rest.length < cs.length }

def Reading.stop {α : Type} {cs : List Char} (value : α) : Reading α cs := ⟨value, none⟩

theorem Cursor.shorter_of_le {c : Cursor} {cs ds : List Char}
    (hc : c.rest.length < cs.length) (h : cs.length ≤ ds.length) : c.rest.length < ds.length :=
  Nat.lt_of_lt_of_le hc h

theorem Cursor.short_of_le {c : Cursor} {cs ds : List Char}
    (hc : c.rest.length ≤ cs.length) (h : cs.length ≤ ds.length) :
    c.rest.length ≤ ds.length :=
  Nat.le_trans hc h

def Reading.widen {α : Type} {cs ds : List Char} (r : Reading α cs)
    (h : cs.length ≤ ds.length) : Reading α ds :=
  ⟨r.value, r.next.map fun ⟨c, hc⟩ => ⟨c, c.shorter_of_le hc h⟩⟩

/-- The letters of a literal after its first; the fault if they are not there. -/
def readLetters (index : Nat) : List Char → List Char → Except Fault Cursor
  | [], cs => .ok ⟨index, cs⟩
  | _ :: _, [] => .error ⟨.eofValue, index⟩
  | l :: ls, c :: r =>
    if c = l then readLetters (index + 1) ls r else .error ⟨.expectedIdent, index + 1⟩

theorem readLetters_length_le {index : Nat} {ls cs : List Char} {c : Cursor}
    (h : readLetters index ls cs = .ok c) : c.rest.length ≤ cs.length := by
  induction ls generalizing index cs with
  | nil => simp [readLetters] at h; simp [← h]
  | cons l ls ih =>
    cases cs with
    | nil => simp [readLetters] at h
    | cons d r =>
      simp only [readLetters] at h
      split at h
      · have := ih h; simp; omega
      · simp at h

def readLiteral (node : Nat → Nat → Node) (letters : List Char) (index : Nat) (first : Char)
    (r : List Char) : Reading Node (first :: r) :=
  match h : readLetters (index + 1) letters r with
  | .ok c => ⟨node index c.index, some ⟨c, by have := readLetters_length_le h; simp; omega⟩⟩
  | .error f => .stop (.broken index ⟨f, f⟩)

end Ambient.Json
