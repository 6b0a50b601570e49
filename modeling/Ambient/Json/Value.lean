import Ambient.Json.Quote

/-! JSON values as they are written: without spaces, or with one entry a line and two spaces for
each level. The keys of an object keep their order. There are no numbers in what is written. -/
namespace Ambient.Json

inductive Value where
  | null
  | bool (b : Bool)
  | text (s : String)
  | array (items : List Value)
  | object (fields : List (String × Value))
  deriving Repr, Inhabited

namespace Value

def boolText (b : Bool) : String := if b then "true" else "false"

mutual
def compact : Value → String
  | null => "null"
  | bool b => boolText b
  | text s => quote s
  | array items => "[" ++ ",".intercalate (compactItems items) ++ "]"
  | object fields => "\x7b" ++ ",".intercalate (compactFields fields) ++ "\x7d"

def compactItems : List Value → List String
  | [] => []
  | v :: more => compact v :: compactItems more

def compactFields : List (String × Value) → List String
  | [] => []
  | (key, v) :: more => (quote key ++ ":" ++ compact v) :: compactFields more
end

/-- Entries between an opening and a closing bracket, each on a line of its own. -/
def enclosed (opening closing indent : String) (entries : List String) : String :=
  if entries.isEmpty then opening ++ closing
  else opening ++ "\n" ++ ",\n".intercalate (entries.map (indent ++ "  " ++ ·)) ++ "\n" ++
    indent ++ closing

mutual
def prettyAt (indent : String) : Value → String
  | null => "null"
  | bool b => boolText b
  | text s => quote s
  | array items => enclosed "[" "]" indent (prettyItems (indent ++ "  ") items)
  | object fields => enclosed "\x7b" "\x7d" indent (prettyFields (indent ++ "  ") fields)

def prettyItems (indent : String) : List Value → List String
  | [] => []
  | v :: more => prettyAt indent v :: prettyItems indent more

def prettyFields (indent : String) : List (String × Value) → List String
  | [] => []
  | (key, v) :: more => (quote key ++ ": " ++ prettyAt indent v) :: prettyFields indent more
end

def pretty (v : Value) : String := prettyAt "" v

def ofOption : Option String → Value
  | some s => text s
  | none => null

def texts (items : List String) : Value := array (items.map text)

end Value

end Ambient.Json
