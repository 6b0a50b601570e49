/-! Trees of directories and text files. A place in a tree is the list of names that leads to it,
and the entries of a directory stand in the order of their names. -/
namespace Ambient

inductive FileTree where
  | file (text : String)
  | dir (entries : List (String × FileTree))
  deriving Repr

namespace FileTree

def empty : FileTree := dir []

instance : Inhabited FileTree := ⟨empty⟩

def isFile : FileTree → Bool
  | file _ => true
  | dir _ => false

def isDir : FileTree → Bool
  | file _ => false
  | dir _ => true

def entries : FileTree → List (String × FileTree)
  | file _ => []
  | dir entries => entries

def child? (t : FileTree) (name : String) : Option FileTree :=
  (t.entries.find? (·.1 == name)).map (·.2)

def find? (t : FileTree) : List String → Option FileTree
  | [] => some t
  | name :: names => (t.child? name).bind (·.find? names)

/-- Changes the entry of a name, which goes where its name belongs if it is new. -/
def update (name : String) (change : FileTree → FileTree) :
    List (String × FileTree) → List (String × FileTree)
  | [] => [(name, change empty)]
  | (n, t) :: more =>
    if n < name then (n, t) :: update name change more
    else if n = name then (n, change t) :: more
    else (name, change empty) :: (n, t) :: more

/-- Puts `new` at a place. Directories that the way there lacks are made. -/
def put (t : FileTree) (names : List String) (new : FileTree) : FileTree :=
  match names with
  | [] => new
  | name :: names => dir (update name (fun t => t.put names new) t.entries)

/-- Without what is at a place; the root stays. -/
def erase : FileTree → List String → FileTree
  | dir entries, [name] => dir (entries.filter (·.1 != name))
  | dir entries, name :: next :: names =>
    dir (entries.map fun (n, t) => (n, if n = name then t.erase (next :: names) else t))
  | t, _ => t

mutual
/-- The places of the files in a tree that are reached through directories whose names satisfy
`enters`: siblings in their order, and what is in a directory in its place. -/
def files (enters : String → Bool) : FileTree → List (List String)
  | file _ => [[]]
  | dir entries => filesIn enters entries

def filesIn (enters : String → Bool) : List (String × FileTree) → List (List String)
  | [] => []
  | (name, t) :: more =>
    (if t.isDir && !enters name then [] else (files enters t).map (name :: ·)) ++
      filesIn enters more
end

end FileTree

end Ambient
