import Ambient.Json.Number
import Ambient.Json.Position
import Ambient.Text.Quoted

/-! What can be wrong with a JSON document: it ends early, it is not JSON, or it is JSON of another
shape than wanted. -/
namespace Ambient.Json

inductive Category where
  | endOfText
  | malformed
  | data
  deriving DecidableEq, Repr

/-- What stands where something else is wanted. -/
inductive Found where
  | null
  | bool (b : Bool)
  | number (n : Number)
  | text (s : String)
  | sequence
  | map
  deriving DecidableEq, Repr

def Found.label : Found → String
  | null => "null"
  | bool b => "boolean `" ++ (if b then "true" else "false") ++ "`"
  | number (.whole n) => "integer `" ++ toString n ++ "`"
  | number (.floating negative b) => "floating point `" ++ Number.floatingText negative b ++ "`"
  | text s => "string " ++ Text.quoted s
  | sequence => "sequence"
  | map => "map"

inductive Reason where
  | eofList | eofObject | eofString | eofValue
  | expectedColon | expectedListEnd | expectedObjectEnd | expectedIdent | expectedValue
  | invalidEscape | invalidNumber | numberOutOfRange | loneSurrogate | endOfHexEscape
  | controlCharacter | keyNotString | trailingComma | trailingCharacters | recursionLimit
  | invalidType (found : Found) (wanted : String)
  | missingField (name : String)
  | duplicateField (name : String)
  | unknownVariant (name : String) (wanted : List String)
  | invalidLength (length : Nat) (wanted : String)
  deriving DecidableEq, Repr

namespace Reason

def category : Reason → Category
  | eofList | eofObject | eofString | eofValue => .endOfText
  | invalidType .. | missingField .. | duplicateField .. | unknownVariant ..
  | invalidLength .. => .data
  | _ => .malformed

def quotedNames (names : List String) : String :=
  ", ".intercalate (names.map fun name => "`" ++ name ++ "`")

def message : Reason → String
  | eofList => "EOF while parsing a list"
  | eofObject => "EOF while parsing an object"
  | eofString => "EOF while parsing a string"
  | eofValue => "EOF while parsing a value"
  | expectedColon => "expected `:`"
  | expectedListEnd => "expected `,` or `]`"
  | expectedObjectEnd => "expected `,` or `\x7d`"
  | expectedIdent => "expected ident"
  | expectedValue => "expected value"
  | invalidEscape => "invalid escape"
  | invalidNumber => "invalid number"
  | numberOutOfRange => "number out of range"
  | loneSurrogate => "lone leading surrogate in hex escape"
  | endOfHexEscape => "unexpected end of hex escape"
  | controlCharacter => "control character (\\u0000-\\u001F) found while parsing a string"
  | keyNotString => "key must be a string"
  | trailingComma => "trailing comma"
  | trailingCharacters => "trailing characters"
  | recursionLimit => "recursion limit exceeded"
  | invalidType found wanted => "invalid type: " ++ found.label ++ ", expected " ++ wanted
  | missingField name => "missing field `" ++ name ++ "`"
  | duplicateField name => "duplicate field `" ++ name ++ "`"
  | unknownVariant name wanted =>
    "unknown variant `" ++ name ++ "`, expected one of " ++ quotedNames wanted
  | invalidLength length wanted =>
    "invalid length " ++ toString length ++ ", expected " ++ wanted

end Reason

/-- A reason and the number of bytes through the place it is seen at. -/
structure Fault where
  reason : Reason
  index : Nat
  deriving DecidableEq, Repr

namespace Fault

def position (f : Fault) (cs : List Char) : Position := Position.after cs f.index

/-- The offset of the byte a fault is seen at. -/
def offset (f : Fault) (cs : List Char) : Option Nat :=
  let p := f.position cs
  lineColumnOffset cs p.line p.column

def message (f : Fault) (cs : List Char) : String :=
  let p := f.position cs
  f.reason.message ++ " at line " ++ toString p.line ++ " column " ++ toString p.column

end Fault

end Ambient.Json
