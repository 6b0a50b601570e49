import Ambient.Json.NumberReader
import Ambient.Json.StringReader

/-! Reading JSON values and documents. -/
namespace Ambient.Json

structure Items where
  items : List Node
  ending : Ending

structure Fields where
  fields : List Field
  ending : Ending

def skipBlanks (index : Nat) (cs : List Char) : { c : Cursor // c.rest.length ≤ cs.length } :=
  ⟨skipSpace index cs, skipSpace_length_le index cs⟩

/-- What comes next in a list or object: an entry, its end, or a fault. -/
inductive Turn (cs : List Char) where
  | entry (c : Cursor) (h : c.rest.length ≤ cs.length)
  | finished (c : Cursor) (h : c.rest.length < cs.length)
  | broken (b : Break)

/-- What comes after a comma in a list. -/
def afterListComma {comma : Char} (index : Nat) (cs : List Char) : Turn (comma :: cs) :=
  match skipBlanks index cs with
  | ⟨⟨index, []⟩, _⟩ => .broken (.both .eofValue index)
  | ⟨⟨index, c :: r⟩, h⟩ =>
    if c = ']' then .broken (.either .trailingComma .expectedValue (index + 1))
    else .entry ⟨index, c :: r⟩ (Nat.le_succ_of_le h)

/-- What comes after a comma in an object, which has to be a key. -/
def afterObjectComma {comma : Char} (index : Nat) (cs : List Char) : Turn (comma :: cs) :=
  match skipBlanks index cs with
  | ⟨⟨index, []⟩, _⟩ => .broken (.either .eofValue .eofObject index)
  | ⟨⟨index, c :: r⟩, h⟩ =>
    if c = '"' then .entry ⟨index, c :: r⟩ (Nat.le_succ_of_le h)
    else if c = '\x7d' then .broken (.either .trailingComma .keyNotString (index + 1))
    else .broken (.both .keyNotString (index + 1))

def Turn.widen {cs ds : List Char} (h : cs.length ≤ ds.length) : Turn cs → Turn ds
  | entry c hc => entry c (c.short_of_le hc h)
  | finished c hc => finished c (c.shorter_of_le hc h)
  | broken b => broken b

def nextItem (first : Bool) (index : Nat) (cs : List Char) : Turn cs :=
  match skipBlanks index cs with
  | ⟨⟨index, []⟩, _⟩ => .broken (.both .eofList index)
  | ⟨⟨index, c :: r⟩, h⟩ =>
    if c = ']' then .finished ⟨index + 1, r⟩ h
    else if first then .entry ⟨index, c :: r⟩ h
    else if c = ',' then (afterListComma (index + 1) r).widen h
    else .broken (.both .expectedListEnd (index + 1))

def nextKey (first : Bool) (index : Nat) (cs : List Char) : Turn cs :=
  match skipBlanks index cs with
  | ⟨⟨index, []⟩, _⟩ => .broken (.both .eofObject index)
  | ⟨⟨index, c :: r⟩, h⟩ =>
    if c = '\x7d' then .finished ⟨index + 1, r⟩ h
    else if first then
      (if c = '"' then .entry ⟨index, c :: r⟩ h else .broken (.both .keyNotString (index + 1)))
    else if c = ',' then (afterObjectComma (index + 1) r).widen h
    else .broken (.both .expectedObjectEnd (index + 1))

/-- Through the colon after a key. -/
def afterColon (index : Nat) (cs : List Char) :
    Except Break { c : Cursor // c.rest.length < cs.length } :=
  match skipBlanks index cs with
  | ⟨⟨index, []⟩, _⟩ => .error (.both .eofObject index)
  | ⟨⟨index, c :: r⟩, h⟩ =>
    if c = ':' then .ok ⟨⟨index + 1, r⟩, h⟩ else .error (.both .expectedColon (index + 1))

/-- A key, the offset of what follows it, and where to go on. -/
structure KeyRead (cs : List Char) where
  key : Except Fault String
  next : Nat
  cursor : Cursor
  shorter : cursor.rest.length < cs.length

/-- A key from its opening quote on. -/
def readKey (index : Nat) (cs : List Char) : Except Break (KeyRead cs) :=
  match cs with
  | [] => .error (.both .eofObject index)
  | q :: r =>
    let s := readString (index + 1) r
    match h : s.next with
    | .ok c => .ok ⟨s.text.map String.ofList, (skipSpace c.index c.rest).index, c, by
        have := readString_length_lt h; simp; omega⟩
    | .error f => .error ⟨s.used f, f⟩

mutual
def readValue (index : Nat) (cs : List Char) : Reading Node cs :=
  match skipBlanks index cs with
  | ⟨⟨index, []⟩, _⟩ => .stop (.broken index (.both .eofValue index))
  | ⟨⟨start, c :: r⟩, hs⟩ =>
    if c = 'n' then (readLiteral .null ['u', 'l', 'l'] start c r).widen hs
    else if c = 't' then (readLiteral (.bool · · true) ['r', 'u', 'e'] start c r).widen hs
    else if c = 'f' then (readLiteral (.bool · · false) ['a', 'l', 's', 'e'] start c r).widen hs
    else if c = '-' ∨ c.isDigit then (readNumber start c r).widen hs
    else if c = '"' then (readText start r).widen hs
    else if c = '[' then
      let inner := readItems true (start + 1) r
      ⟨.array start inner.value.items inner.value.ending,
        (inner.widen (Nat.le_of_lt hs)).next⟩
    else if c = '\x7b' then
      let inner := readFields true (start + 1) r
      ⟨.object start inner.value.fields inner.value.ending,
        (inner.widen (Nat.le_of_lt hs)).next⟩
    else .stop (.broken start (.both .expectedValue (start + 1)))
termination_by 2 * cs.length
decreasing_by all_goals simp at hs; omega

/-- The items of a list through its bracket. -/
def readItems (first : Bool) (index : Nat) (cs : List Char) : Reading Items cs :=
  match nextItem first index cs with
  | .broken b => .stop ⟨[], .broken b⟩
  | .finished c h => ⟨⟨[], .closed c.index⟩, some ⟨c, h⟩⟩
  | .entry c hc =>
    match readValue c.index c.rest with
    | ⟨node, none⟩ => .stop ⟨[node], .inside⟩
    | ⟨node, some ⟨d, hd⟩⟩ =>
      let more := readItems false d.index d.rest
      ⟨⟨node :: more.value.items, more.value.ending⟩,
        (more.widen (by omega)).next⟩
termination_by 2 * cs.length + 1
decreasing_by all_goals omega

/-- The fields of an object through its brace. -/
def readFields (first : Bool) (index : Nat) (cs : List Char) : Reading Fields cs :=
  match nextKey first index cs with
  | .broken b => .stop ⟨[], .broken b⟩
  | .finished c h => ⟨⟨[], .closed c.index⟩, some ⟨c, h⟩⟩
  | .entry c hc =>
    match readKey c.index c.rest with
    | .error b => .stop ⟨[], .broken b⟩
    | .ok ⟨key, next, d, hd⟩ =>
      match afterColon d.index d.rest with
      | .error b => .stop ⟨[⟨key, next, .broken next b⟩], .inside⟩
      | .ok ⟨e, he⟩ =>
        match readValue e.index e.rest with
        | ⟨node, none⟩ => .stop ⟨[⟨key, next, node⟩], .inside⟩
        | ⟨node, some ⟨g, hg⟩⟩ =>
          let more := readFields false g.index g.rest
          ⟨⟨⟨key, next, node⟩ :: more.value.fields, more.value.ending⟩,
            (more.widen (by omega)).next⟩
termination_by 2 * cs.length + 1
decreasing_by all_goals omega
end

/-- A document: its value, and the fault of what follows the value. -/
structure Document where
  value : Node
  trailing : Option Fault

def Document.read (text : String) : Document :=
  match readValue 0 text.toList with
  | ⟨node, none⟩ => ⟨node, none⟩
  | ⟨node, some ⟨c, _⟩⟩ =>
    match skipSpace c.index c.rest with
    | ⟨_, []⟩ => ⟨node, none⟩
    | ⟨index, _⟩ => ⟨node, some ⟨.trailingCharacters, index + 1⟩⟩

end Ambient.Json
