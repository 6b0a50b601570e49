import Ambient.Toml.Scalar
import Ambient.Toml.Table

/-! TOML documents: keys, values and headers, line by line. -/
namespace Ambient.Toml

/-- Tables and lists nest less deeply than this, and dotted keys have fewer parts. -/
def maxDepth : Nat := 80

def isBareKey (c : Char) : Bool := c.isAlphanum || c == '_' || c == '-'

def readKeyPart (cs : List Char) : Option (List Char × List Char) :=
  match cs with
  | '"' :: r => readBasic r
  | '\'' :: r => readLiteral r
  | cs =>
    let name := cs.takeWhile isBareKey
    if name = [] then none else some (name, cs.dropWhile isBareKey)

/-- The parts of a dotted key with the blanks around it. -/
def readParts (cs : List Char) : Option (List String × List Char) :=
  match readKeyPart (skipBlanks cs) with
  | none => none
  | some (part, r) =>
    match skipBlanks r with
    | '.' :: rest =>
      if rest.length < cs.length then
        (readParts rest).map fun (parts, rest) => (String.ofList part :: parts, rest)
      else none
    | rest => some ([String.ofList part], rest)
termination_by cs.length

/-- A dotted key: where it leads, and its last part. -/
structure Key where
  path : List String
  last : String

def readKey (cs : List Char) : Option (Key × List Char) :=
  (readParts cs).bind fun (parts, r) =>
    if parts.length < maxDepth then
      parts.getLast?.map fun last => (⟨parts.dropLast, last⟩, r)
    else none

/-- The text after the items of a list and its closing bracket. -/
def afterItems? (value : Reader Item) (cs : List Char) : Option (List Char) :=
  match skipLines cs with
  | none => none
  | some (']' :: r) => some r
  | some r =>
    match (value r).bind fun (_, r) => skipLines r with
    | some (']' :: rest) => some rest
    | some (',' :: rest) => if rest.length < cs.length then afterItems? value rest else none
    | _ => none
termination_by cs.length

/-- A key with its value. -/
def readPair (value : Reader Item) (cs : List Char) : Option ((Key × Item) × List Char) :=
  (readKey cs).bind fun (key, r) =>
    match r with
    | '=' :: r => (value (skipBlanks r)).map fun (item, r) => ((key, item), skipBlanks r)
    | _ => none

/-- The text after the pairs of a table on one line and its closing brace. -/
def afterPairs? (value : Reader Item) (entries : Entries) (cs : List Char) :
    Option (List Char) :=
  match readPair value cs with
  | none => none
  | some ((key, item), r) =>
    match entries.assign key.path key.last item .header with
    | none => none
    | some entries =>
      match r with
      | '\x7d' :: rest => some rest
      | ',' :: rest => if rest.length < cs.length then afterPairs? value entries rest else none
      | _ => none
termination_by cs.length

/-- A value that nests less deeply than `depth`. -/
def readValue (depth : Nat) (cs : List Char) : Option (Item × List Char) :=
  match depth, cs with
  | 0, _ => none
  | _, '"' :: _ | _, '\'' :: _ =>
    (readString cs).map fun (text, r) => (.text (String.ofList text), r)
  | depth + 1, '[' :: r =>
    if depth = 0 then none else (afterItems? (readValue depth) r).map (.other, ·)
  | depth + 1, '\x7b' :: r =>
    if depth = 0 then none
    else match skipBlanks r with
      | '\x7d' :: rest => some (.other, rest)
      | r => (afterPairs? (readValue depth) [] r).map (.other, ·)
  | _, 't' :: _ => (afterWord? "true" cs).map (.bool true, ·)
  | _, 'f' :: _ => (afterWord? "false" cs).map (.bool false, ·)
  | _, 'i' :: _ => (afterWord? "inf" cs).map (.other, ·)
  | _, 'n' :: _ => (afterWord? "nan" cs).map (.other, ·)
  | _, cs => (afterNumber? cs).map (.other, ·)

/-- A document as far as it is read: all its tables, and the way to the one that is open. -/
structure Progress where
  entries : Entries
  opened : List String

def readHeader (p : Progress) (isNext : Bool) (cs : List Char) : Option (Progress × List Char) :=
  (readKey cs).bind fun (key, r) =>
    let entries :=
      if isNext then p.entries.openNext key.path key.last
      else p.entries.openTable key.path key.last
    let after := if isNext then afterWord? "]]" r else afterWord? "]" r
    entries.bind fun entries => after.map fun r => (⟨entries, key.path ++ [key.last]⟩, r)

/-- What a line holds, as far as its end. -/
def readLine (p : Progress) (cs : List Char) : Option (Progress × List Char) :=
  match cs with
  | '[' :: '[' :: r => readHeader p true r
  | '[' :: r => readHeader p false r
  | '#' :: _ | '\n' :: _ | '\r' :: _ => some (p, cs)
  | cs =>
    (readPair (readValue maxDepth) cs).bind fun ((key, item), r) =>
      (p.entries.assignIn p.opened key.path key.last item).map fun entries =>
        ({ p with entries }, r)

def readLines (p : Progress) (cs : List Char) : Option Progress :=
  match skipBlanks cs with
  | [] => some p
  | line =>
    match readLine p line with
    | none => none
    | some (p, r) =>
      match endOfLine? r with
      | none => none
      | some rest => if rest.length < cs.length then readLines p rest else none
termination_by cs.length

def dropByteOrderMark (cs : List Char) : List Char :=
  match cs with
  | '\ufeff' :: r => r
  | cs => cs

/-- The top-level table of a document. -/
def parse (text : String) : Option Entries :=
  (readLines ⟨[], []⟩ (dropByteOrderMark text.toList)).map (·.entries)

end Ambient.Toml
