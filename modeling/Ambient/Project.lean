import Ambient.Failure
import Ambient.Options.Json
import Ambient.Options.Toml

/-! Projects: a root directory with a name, the sources below it, and the options in force. -/
namespace Ambient

structure Project where
  root : Path
  name : String
  deriving DecidableEq, Repr

namespace Project

def fileExtensions : List String := ["csproj", "vbproj", "fsproj"]

def skippedDirs : List String := ["bin", "obj", "node_modules"]

def documentSuffix : String := ".types.json"

def overrideName : String := "tsdefgen.json"

def globalName : String := "tsdefgen.toml"

def isProjectFile (name : String) : Bool :=
  (Path.splitName name).2.any fileExtensions.contains

/-- The first project file in a directory. -/
def fileIn? (fs : FileSystem) (dir : Path) : Option String := (fs.names dir).find? isProjectFile

/-- The project at a root, named after its project file if there is one and else after the root. -/
def rootedAt (fs : FileSystem) (path : Path) : Project :=
  let root := match fs.canonical path with
    | .ok root => root
    | .error _ => path
  ⟨root, ((fileIn? fs root).map fun name => (Path.splitName name).1).getD root.fileName⟩

/-- The directory a path stands for: itself, or the one that holds it. -/
def directoryOf (fs : FileSystem) (path : Path) : Path :=
  if fs.isDir path then path else path.parent?.getD path

/-- The project around a path: at the nearest directory upwards with a project file, or else at the
directory of the path. -/
def around (fs : FileSystem) (path : Path) : Project :=
  let dir := directoryOf fs path
  rootedAt fs ((dir.ancestors.find? fun d => (fileIn? fs d).isSome).getD dir)

/-- Whether files are looked for in a directory of this name. -/
def entersDir (name : String) : Bool :=
  !Text.startsWith name "." && !skippedDirs.contains name.toLower

def isSourceName (name : String) : Bool :=
  Text.endsWith name ".cs" || Text.endsWith name documentSuffix

/-- The files of a project, in the order of their places. -/
def files (p : Project) (fs : FileSystem) : List Path :=
  ((fs.node? p.root).map fun t => t.files entersDir).getD [] |>.map fun names =>
    names.foldl (fun path name => path.join ⟨name⟩) p.root

def sources (p : Project) (fs : FileSystem) : List Path :=
  (p.files fs).filter fun path => path.fileName?.any isSourceName

/-- The file whose options replace the global ones. -/
def override? (p : Project) (fs : FileSystem) : Option Path :=
  (p.files fs).find? fun path => path.fileName?.any (·.toLower == overrideName)

end Project

/-- The options in force for a project, and the file they come from if they are its own. -/
structure Settings where
  options : Options
  override : Option Path
  deriving DecidableEq, Repr

namespace Settings

def ofProject (fs : FileSystem) (base : Options) (p : Project) : Except Failure Settings :=
  match p.override? fs with
  | none => .ok ⟨base, none⟩
  | some path =>
    match fs.read path with
    | .error trouble => .error (.access path trouble)
    | .ok text =>
      match Options.parseJson text with
      | .error fault => .error (.settings path text fault)
      | .ok options => .ok ⟨options, some path⟩

/-- Global options from a file that must be there. Malformed ones count for nothing. -/
def load (fs : FileSystem) (path : Path) : Except Failure Options :=
  match fs.read path with
  | .error trouble => .error (.access path trouble)
  | .ok text => .ok ((Options.parseToml text).getD .default)

/-- The global options: from the given file, or from the one in the home directory if there is
one. -/
def loadGlobal (fs : FileSystem) (home : Option Path) (given : Option Path) :
    Except Failure Options :=
  match given, home with
  | some path, _ => load fs path
  | none, none => .ok .default
  | none, some home =>
    let path := home.join ⟨Project.globalName⟩
    if (fs.node? path).isSome then load fs path else .ok .default

end Settings

end Ambient
