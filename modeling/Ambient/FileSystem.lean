import Ambient.FileTree
import Ambient.Path

/-! A file tree and the directory that relative paths start from. There are no links, so every
place has one canonical path. -/
namespace Ambient

/-- Why a path cannot be read or written. -/
inductive FileTrouble where
  | missing
  | busy
  | notDirectory
  | isDirectory
  | nameTooLong
  | nulInName
  deriving DecidableEq, Repr

/-- The bare reason. Where the temporary file behind a write cannot be made, the report of the
system goes on with the path of that file; its name is drawn at random, so it is left out here. -/
def FileTrouble.message : FileTrouble → String
  | missing => "No such file or directory (os error 2)"
  | busy => "Device or resource busy (os error 16)"
  | notDirectory => "Not a directory (os error 20)"
  | isDirectory => "Is a directory (os error 21)"
  | nameTooLong => "File name too long (os error 36)"
  | nulInName => "file name contained an unexpected NUL byte"

structure FileSystem where
  tree : FileTree
  workDir : List String
  deriving Repr

namespace FileSystem

def maxNameBytes : Nat := 255

/-- One step from a directory. -/
def enter (fs : FileSystem) (place : List String) (piece : String) :
    Except FileTrouble (List String) :=
  match fs.tree.find? place with
  | none => .error .missing
  | some (.file _) => .error .notDirectory
  | some t =>
    if piece = "" ∨ piece = "." then .ok place
    else if piece = ".." then .ok place.dropLast
    else if maxNameBytes < piece.utf8ByteSize then .error .nameTooLong
    else if (t.child? piece).isSome then .ok (place ++ [piece])
    else .error .missing

def walk (fs : FileSystem) : List String → List String → Except FileTrouble (List String)
  | place, [] => .ok place
  | place, piece :: more => (fs.enter place piece).bind fun place => fs.walk place more

/-- Where a path starts and the pieces it then goes through. -/
def start (fs : FileSystem) (p : Path) : Except FileTrouble (List String × List String) :=
  if p.text.isEmpty then .error .missing
  else if p.text.toList.contains '\x00' then .error .nulInName
  else .ok (if p.isAbsolute then [] else fs.workDir,
    (Text.pieces Path.isSlash p.text.toList).map String.ofList)

/-- The place that a path leads to, where there is something. -/
def resolve (fs : FileSystem) (p : Path) : Except FileTrouble (List String) :=
  (fs.start p).bind fun (place, pieces) => fs.walk place pieces

def node? (fs : FileSystem) (p : Path) : Option FileTree :=
  match fs.resolve p with
  | .ok place => fs.tree.find? place
  | .error _ => none

def isDir (fs : FileSystem) (p : Path) : Bool := (fs.node? p).any (·.isDir)

def isFile (fs : FileSystem) (p : Path) : Bool := (fs.node? p).any (·.isFile)

def pathOf (place : List String) : Path := ⟨"/" ++ "/".intercalate place⟩

/-- The path of the current directory. -/
def current (fs : FileSystem) : Path := pathOf fs.workDir

def canonical (fs : FileSystem) (p : Path) : Except FileTrouble Path := (fs.resolve p).map pathOf

/-- The names in a directory, in their order. -/
def names (fs : FileSystem) (p : Path) : List String :=
  ((fs.node? p).map fun t => t.entries.map (·.1)).getD []

def read (fs : FileSystem) (p : Path) : Except FileTrouble String :=
  (fs.resolve p).bind fun place =>
    match fs.tree.find? place with
    | some (.file text) => .ok text
    | some (.dir _) => .error .isDirectory
    | none => .error .missing

/-- The place that a path names in a directory that exists, whether or not there is something. -/
def newPlace (fs : FileSystem) (p : Path) : Except FileTrouble (List String) :=
  (fs.start p).bind fun (place, pieces) =>
    let spine := Text.dropEndWhile (· == "") pieces
    let name := spine.getLast?.getD ""
    (fs.walk place (spine.dropLast ++ [""])).bind fun dir =>
      if name = "" ∨ name = "." ∨ name = ".." then .error .busy
      else if maxNameBytes < name.utf8ByteSize then .error .nameTooLong
      else if spine.length < pieces.length then .error .notDirectory
      else .ok (dir ++ [name])

/-- The directory in which a file under a path is prepared before it takes its name. -/
def prepareDir (p : Path) : Path := if p.parent.text.isEmpty then ⟨"."⟩ else p.parent

/-- Writes a whole file or nothing, in place of the file that may be there. -/
def write (fs : FileSystem) (p : Path) (text : String) : Except FileTrouble FileSystem :=
  ((fs.resolve (prepareDir p)).bind fun place => fs.enter place "").bind fun _ =>
    (fs.newPlace p).bind fun place =>
      match fs.tree.find? place with
      | some (.dir _) => .error .isDirectory
      | _ => .ok { fs with tree := fs.tree.put place (.file text) }

/-- The pieces of a path that are still to be entered once the directories they need are made. -/
def makeDirsFrom (fs : FileSystem) : List String → List String → Except FileTrouble FileSystem
  | place, [] => (fs.enter place "").map fun _ => fs
  | place, piece :: more =>
    match fs.enter place piece with
    | .ok place => fs.makeDirsFrom place more
    | .error .missing =>
      let place := place ++ [piece]
      makeDirsFrom { fs with tree := fs.tree.put place .empty } place more
    | .error trouble => .error trouble

/-- Makes a directory and those it lies in, as far as they do not exist. -/
def makeDirs (fs : FileSystem) (p : Path) : Except FileTrouble FileSystem :=
  (fs.start p).bind fun (place, pieces) => fs.makeDirsFrom place pieces

/-- Writes a file in a directory that is made if it does not exist. -/
def create (fs : FileSystem) (p : Path) (text : String) : Except FileTrouble FileSystem :=
  (fs.makeDirs (prepareDir p)).bind fun fs => fs.write p text

/-- Removes a file, or a directory with all that is in it. -/
def remove (fs : FileSystem) (p : Path) : Except FileTrouble FileSystem :=
  (fs.resolve p).map fun place => { fs with tree := fs.tree.erase place }

end FileSystem

end Ambient
