import Ambient.Text.Blank
import Ambient.Text.Search

/-! The metadata kept beside a generated file: a name chosen for it, the places it is copied to, and
where the types it refers to live. -/
namespace Ambient

/-- Where a type lives: its qualified name, its project, and its file below the project root. -/
structure TypeHome where
  typeName : String
  projectName : String
  itemName : String
  deriving DecidableEq, Repr

structure Sidecar where
  customName : Option String
  copyPaths : List String
  homes : List TypeHome
  deriving DecidableEq, Repr

namespace Sidecar

def empty : Sidecar := ⟨none, [], []⟩

/-- The chosen name unless it is blank. -/
def givenName (s : Sidecar) : Option String := s.customName.filter (!Text.blank ·)

def copyTargets (s : Sidecar) : List String := s.copyPaths.filter (!Text.blank ·)

/-- Puts `home` where its type name belongs, in place of an entry of that name. -/
def insertHome (home : TypeHome) : List TypeHome → List TypeHome
  | [] => [home]
  | h :: r =>
    if h.typeName < home.typeName then h :: insertHome home r
    else if h.typeName = home.typeName then home :: r
    else home :: h :: r

def record (s : Sidecar) (home : TypeHome) : Sidecar :=
  { s with homes := insertHome home s.homes }

/-- Whether a name ends in a dot followed by `written`, or its last segment is `written`. -/
def endsIn (typeName written : String) : Bool :=
  Text.lastPiece (· == '.') typeName.toList == written.toList ||
    Text.endsWith typeName ("." ++ written)

def findHome? (s : Sidecar) (written : String) : Option TypeHome :=
  (s.homes.find? (·.typeName == written)).or (s.homes.find? fun h => endsIn h.typeName written)

def dropRepeated : List TypeHome → List TypeHome
  | [] => []
  | [h] => [h]
  | h :: g :: r =>
    if h.typeName = g.typeName then dropRepeated (h :: r) else h :: dropRepeated (g :: r)
termination_by homes => homes.length

/-- Homes in the order of their type names, the first of each name. -/
def settle (homes : List TypeHome) : List TypeHome :=
  dropRepeated (homes.mergeSort fun a b => decide (a.typeName ≤ b.typeName))

end Sidecar

end Ambient
