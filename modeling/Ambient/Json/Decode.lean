import Ambient.Json.Reader

/-! Taking typed values out of JSON documents. Whatever comes first in the text decides: a fault is
found in the order of reading, and what a record does not know is passed over. Values that are used
nest at most 127 deep. A record is an object of its fields, or a list of them in their order. -/
namespace Ambient.Json

abbrev Decoded (α : Type) := Except Fault α

def maxDepth : Nat := 127

def Ending.used : Ending → Decoded Unit
  | broken b => .error b.used
  | _ => .ok ()

def Ending.passed : Ending → Decoded Unit
  | broken b => .error b.passed
  | _ => .ok ()

def Ending.stop : Ending → Nat
  | closed stop => stop
  | _ => 0

namespace Node

mutual
/-- Passes over a value. -/
def pass : Node → Decoded Unit
  | array _ items ending => (passItems items).bind fun _ => ending.passed
  | object _ fields ending => (passFields fields).bind fun _ => ending.passed
  | broken _ b => .error b.passed
  | _ => .ok ()

def passItems : List Node → Decoded Unit
  | [] => .ok ()
  | item :: more => item.pass.bind fun _ => passItems more

def passFields : List (FieldOf Node) → Decoded Unit
  | [] => .ok ()
  | ⟨_, _, value⟩ :: more => value.pass.bind fun _ => passFields more
end

/-- The fault of a value where something else is wanted. A scalar is read first. -/
def mismatch (wanted : String) : Node → Fault
  | null _ stop => ⟨.invalidType .null wanted, stop⟩
  | bool _ stop b => ⟨.invalidType (.bool b) wanted, stop⟩
  | number _ stop (.ok n) => ⟨.invalidType (.number n) wanted, stop⟩
  | text _ stop (.ok s) => ⟨.invalidType (.text s) wanted, stop⟩
  | number _ _ (.error f) | text _ _ (.error f) => f
  | array start _ _ => ⟨.invalidType .sequence wanted, start⟩
  | object start _ _ => ⟨.invalidType .map wanted, start⟩
  | broken _ b => b.used

def tooDeep {α : Type} (n : Node) : Decoded α := .error ⟨.recursionLimit, n.start + 1⟩

def asTextOf (wanted : String) : Node → Decoded String
  | text _ _ value => value
  | n => .error (n.mismatch wanted)

def asText : Node → Decoded String := asTextOf "a string"

def asBool : Node → Decoded Bool
  | bool _ _ b => .ok b
  | n => .error (n.mismatch "a boolean")

def asOptionalText : Node → Decoded (Option String)
  | null _ _ => .ok none
  | n => n.asText.map some

/-- A list of values, which nests `depth` levels at most. -/
def asList {α : Type} (depth : Nat) (item : Node → Decoded α) : Node → Decoded (List α)
  | n@(array _ items ending) =>
    if depth = 0 then n.tooDeep
    else (items.mapM item).bind fun values => ending.used.map fun _ => values
  | n => .error (n.mismatch "a sequence")

end Node

/-- A field of a record that is being read into a draft. -/
structure RecordField (σ : Type) where
  name : String
  otherNames : List String
  isSet : σ → Bool
  read : Node → σ → Decoded σ

def RecordField.make {σ β : Type} (name : String) (otherNames : List String)
    (get : σ → Option β) (set : σ → β → σ) (value : Node → Decoded β) :
    RecordField σ where
  name := name
  otherNames := otherNames
  isSet s := (get s).isSome
  read n s := (value n).map (set s)

def RecordField.accepts {σ : Type} (f : RecordField σ) (key : String) : Bool :=
  key == f.name || f.otherNames.contains key

/-- A required field that a draft lacks: its place and its name. -/
structure Lack where
  place : Nat
  name : String

structure RecordShape (σ α : Type) where
  title : String
  fields : List (RecordField σ)
  draft : σ
  finish : σ → Except Lack α

namespace RecordShape
variable {σ α : Type}

def wanted (r : RecordShape σ α) : String := "struct " ++ r.title

def wantedLength (r : RecordShape σ α) : String :=
  r.wanted ++ " with " ++ toString r.fields.length ++
    (if r.fields.length = 1 then " element" else " elements")

def field? (r : RecordShape σ α) (key : String) : Option (RecordField σ) :=
  r.fields.find? (·.accepts key)

def readFields (r : RecordShape σ α) (draft : σ) : List Field → Decoded σ
  | [] => .ok draft
  | ⟨key, next, value⟩ :: more =>
    key.bind fun key =>
      match r.field? key with
      | none => value.pass.bind fun _ => r.readFields draft more
      | some field =>
        if field.isSet draft then .error ⟨.duplicateField field.name, next⟩
        else (field.read value draft).bind fun draft => r.readFields draft more

def ofObject (r : RecordShape σ α) (fields : List Field) (ending : Ending) : Decoded α :=
  (r.readFields r.draft fields).bind fun draft =>
    ending.used.bind fun _ =>
      match r.finish draft with
      | .ok value => .ok value
      | .error lack => .error ⟨.missingField lack.name, ending.stop⟩

/-- The fault of a list that goes on after the last field. -/
def overlong : Ending → Decoded Unit
  | .broken b =>
    match b.used.reason with
    | .eofValue | .expectedListEnd => .error ⟨.trailingCharacters, b.used.index⟩
    | _ => .error b.used
  | _ => .ok ()

/-- The fields in order, as far as the list goes. -/
def readItems (r : RecordShape σ α) (ending : Ending) (draft : σ) :
    List (RecordField σ) → List Node → Decoded σ
  | [], [] => (overlong ending).map fun _ => draft
  | [], item :: _ => .error ⟨.trailingCharacters, item.start + 1⟩
  | _ :: _, [] => ending.used.map fun _ => draft
  | field :: fields, item :: items =>
    (field.read item draft).bind fun draft => r.readItems ending draft fields items

def ofList (r : RecordShape σ α) (items : List Node) (ending : Ending) : Decoded α :=
  (r.readItems ending r.draft r.fields items).bind fun draft =>
    match r.finish draft with
    | .ok value => .ok value
    | .error lack => .error ⟨.invalidLength lack.place r.wantedLength, ending.stop⟩

/-- A record that nests `depth` levels at most. -/
def decode (r : RecordShape σ α) (depth : Nat) : Node → Decoded α
  | n@(.object _ fields ending) => if depth = 0 then n.tooDeep else r.ofObject fields ending
  | n@(.array _ items ending) => if depth = 0 then n.tooDeep else r.ofList items ending
  | n => .error (n.mismatch r.wanted)

end RecordShape

/-- A value of a document that holds nothing else. -/
def decodeText {α : Type} (decoder : Node → Decoded α) (text : String) : Decoded α :=
  let document := Document.read text
  (decoder document.value).bind fun value =>
    match document.trailing with
    | some fault => .error fault
    | none => .ok value

end Ambient.Json
