import Ambient.Text.Blank
import Ambient.Text.Search

/-! File paths with forward slashes. A path keeps the text it was made from, but two paths are the
same when their components are: doubled slashes, a slash at the end and inner single dots do not
count, and a double dot stays. -/
namespace Ambient

structure Path where
  text : String
  deriving DecidableEq, Repr, Inhabited

namespace Path

inductive Component where
  | root
  | current
  | parent
  | normal (name : String)
  deriving DecidableEq, Repr

def isSlash (c : Char) : Bool := c == '/'

/-- Pieces between slashes that are no component, unless they come first. -/
def isIdle (piece : List Char) : Bool := piece = [] || piece = ['.']

def Component.ofPiece (piece : List Char) : Component :=
  if piece = ['.', '.'] then .parent else .normal (String.ofList piece)

def componentsOf : List (List Char) → List Component
  | [] => []
  | first :: more =>
    let rest := (more.filter (!isIdle ·)).map Component.ofPiece
    if first = [] then (if more = [] then [] else .root :: rest)
    else if first = ['.'] then .current :: rest
    else Component.ofPiece first :: rest

def components (p : Path) : List Component := componentsOf (Text.pieces isSlash p.text.toList)

def same (p q : Path) : Bool := p.components == q.components

def isAbsolute (p : Path) : Bool := p.text.toList.head? == some '/'

/-- The pieces up to the last component. -/
def spine (p : Path) : List (List Char) :=
  match Text.pieces isSlash p.text.toList with
  | [] => []
  | first :: more => first :: Text.dropEndWhile isIdle more

def ofPieces (pieces : List (List Char)) : Path :=
  if pieces = [[]] then ⟨"/"⟩ else ⟨String.ofList (Text.joinWith ['/'] pieces)⟩

def isName (piece : List Char) : Bool := !isIdle piece && piece ≠ ['.', '.']

/-- The last component if it is a name. -/
def fileName? (p : Path) : Option String :=
  (p.spine.getLast?.filter isName).map String.ofList

def fileName (p : Path) : String := p.fileName?.getD ""

/-- The path without its last component; neither the root nor the empty path has one. -/
def parent? (p : Path) : Option Path :=
  match p.spine with
  | [] => none
  | [first] => if first = [] then none else some ⟨""⟩
  | first :: more => some (ofPieces (first :: Text.dropEndWhile isIdle more.dropLast))

def parent (p : Path) : Path := p.parent?.getD ⟨""⟩

def ancestorsWithin : Nat → Path → List Path
  | 0, p => [p]
  | n + 1, p =>
    p :: match p.parent? with
      | some q => ancestorsWithin n q
      | none => []

/-- A path, its parent, the parent of that, and so on. -/
def ancestors (p : Path) : List Path := ancestorsWithin p.spine.length p

/-- An absolute path replaces what it is joined to. -/
def join (p q : Path) : Path :=
  if q.isAbsolute || p.text.isEmpty then q
  else if p.text.toList.getLast? = some '/' then ⟨p.text ++ q.text⟩
  else ⟨p.text ++ "/" ++ q.text⟩

def append (p : Path) (tail : String) : Path := ⟨p.text ++ tail⟩

/-- A file name split at its last dot; a dot in front opens no extension. -/
def splitName (name : String) : String × Option String :=
  let after := (name.toList.reverse.takeWhile (· != '.')).reverse
  let before := name.toList.take (name.toList.length - after.length - 1)
  if before = [] then (name, none) else (String.ofList before, some (String.ofList after))

def extension? (p : Path) : Option String := p.fileName?.bind fun name => (splitName name).2

def stem? (p : Path) : Option String := p.fileName?.map fun name => (splitName name).1

/-- The file name of `p` with another extension in place of the one it has; an empty one is left
out. The old one is cut off the end of the path first: if that leaves a double dot, there is no name
any more that another could be set to. -/
def renamed (p : Path) (name extension : String) : String :=
  let stem := (splitName name).1
  if stem == "." && Text.endsWith p.text name then ".."
  else if extension.isEmpty then stem
  else stem ++ "." ++ extension

/-- Another extension in place of the one a file name has. -/
def withExtension (p : Path) (extension : String) : Path :=
  match p.fileName? with
  | none => p
  | some name => ofPieces (p.spine.dropLast ++ [(p.renamed name extension).toList])

/-- The components of `p` below `base`, if `base` leads to `p`. -/
def below? (base p : Path) : Option (List Component) :=
  let b := base.components
  if b.isPrefixOf p.components then some (p.components.drop b.length) else none

def Component.text : Component → String
  | root => "/"
  | current => "."
  | parent => ".."
  | normal name => name

def joined (components : List Component) : String :=
  "/".intercalate (components.map Component.text)

def commonLength : List Component → List Component → Nat
  | a :: as, b :: bs => if a = b then commonLength as bs + 1 else 0
  | _, _ => 0

/-- The way from one directory to another, or nothing when only the first is anchored at the
root. -/
def relativeDir (source target : Path) : Option String :=
  let a := source.components
  let b := target.components
  if a.head? ≠ b.head? ∧ a.head? = some .root then none
  else
    let n := commonLength a b
    some (joined (List.replicate (a.length - n) .parent ++ b.drop n))

/-- Keeps the first of several equal paths. -/
def insertNew (paths : List Path) (p : Path) : List Path :=
  if paths.any (same p) then paths else paths ++ [p]

end Path

end Ambient
