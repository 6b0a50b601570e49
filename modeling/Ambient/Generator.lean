import Ambient.Host.FileReader
import Ambient.Host.Json
import Ambient.Project
import Ambient.Render
import Ambient.Sidecar.Json
import Ambient.Translation

/-! Generating the declaration files of one project. The file at hand is read afresh each time; the
other files of the project are read once, when they are first wanted. -/
namespace Ambient

namespace Host

def isDocument (path : Path) : Bool := path.extension?.any (·.toLower == "json")

/-- Host metadata from a document or a C# source. -/
def File.load (fs : FileSystem) (path : Path) : Except Failure File :=
  match fs.read path with
  | .error trouble => .error (.access path trouble)
  | .ok text =>
    if isDocument path then
      match File.parseJson text with
      | .ok file => .ok { file with path := path }
      | .error fault => .error (.document path text fault)
    else
      match File.parse path text with
      | .ok file => .ok file
      | .error fault => .error (.source path text fault)

end Host

namespace Sidecar

/-- The sidecar beside an output. One that is blank or malformed counts for nothing. -/
def load? (fs : FileSystem) (output : Path) : Option Sidecar :=
  match fs.read (OutputNaming.mapPath output) with
  | .error _ => none
  | .ok text =>
    if Text.blank text then none
    else match parseJson text with
      | .ok sidecar => some sidecar
      | .error _ => none

/-- Writes a sidecar beside its output, if that is possible. -/
def save (fs : FileSystem) (output : Path) (sidecar : Sidecar) : FileSystem :=
  match fs.write (OutputNaming.mapPath output) sidecar.jsonText with
  | .ok fs => fs
  | .error _ => fs

end Sidecar

structure Generator where
  project : Project
  options : Options
  mode : RenderMode
  /-- The files of the project that load, once they have been read. -/
  known : Option (List Host.File)
  deriving Repr

/-- What a source is translated to, before anything is written. -/
structure Translated where
  source : Path
  output : Path
  rendered : Rendered
  sidecar : Sidecar
  deriving DecidableEq, Repr

/-- What a run wrote. In the modes that hold only some declarations nothing is written when there
are none. -/
structure Outcome where
  output : Path
  written : Bool
  copies : List Path
  failures : List CopyFailure
  deriving DecidableEq, Repr

namespace Generator

def new (project : Project) (options : Options) (mode : RenderMode) : Generator :=
  ⟨project, options, mode, none⟩

def naming (g : Generator) : OutputNaming := .ofOptions g.options

def projectFiles (g : Generator) (fs : FileSystem) : List Host.File :=
  match g.known with
  | some files => files
  | none => (g.project.sources fs).filterMap fun path => (Host.File.load fs path).toOption

/-- The generator once it knows the other files it needs. -/
def prepare (g : Generator) (fs : FileSystem) : Generator :=
  if g.options.assumeExternalType then g else { g with known := some (g.projectFiles fs) }

/-- The index that a file is translated with: the file itself, then the others. -/
def index (g : Generator) (fs : FileSystem) (file : Host.File) : Index :=
  let others := if g.options.assumeExternalType then [] else g.projectFiles fs
  .ofFiles g.project.name g.project.root (file :: others.filter (!·.path.same file.path))

def translateFile (g : Generator) (fs : FileSystem) (file : Host.File) : Translated :=
  let output := g.naming.outputPath file.path
  let setting := Setting.of file (g.index fs file) g.options
  let (declarations, sidecar) := setting.translate ((Sidecar.load? fs output).getD .empty)
  let references := Directive.settle g.naming g.options.keepReferencesUnchanged
    (Sidecar.load? fs) declarations file.path (fs.read output).toOption
  ⟨file.path, output, render declarations references g.options g.mode, sidecar⟩

/-- The file of a source, under its canonical path. -/
def load (fs : FileSystem) (source : Path) : Except Failure Host.File :=
  match fs.canonical source with
  | .error trouble => .error (.access source trouble)
  | .ok path => Host.File.load fs path

/-- Translates a source. Nothing is written. -/
def translate (g : Generator) (fs : FileSystem) (source : Path) :
    Generator × Except Failure Translated :=
  match load fs source with
  | .error failure => (g, .error failure)
  | .ok file => (g.prepare fs, .ok (g.translateFile fs file))

/-- Notes how one copy went, in front of the others. -/
def noteCopy (path : Path) :
    Except FileTrouble FileSystem → FileSystem × List Path × List CopyFailure →
      FileSystem × List Path × List CopyFailure
  | .ok _, (fs, copies, failures) => (fs, path :: copies, failures)
  | .error trouble, (fs, copies, failures) => (fs, copies, ⟨path, trouble⟩ :: failures)

/-- Writes a text to several paths; a path that fails does not stop the others. -/
def writeCopies (fs : FileSystem) (text : String) :
    List Path → FileSystem × List Path × List CopyFailure
  | [] => (fs, [], [])
  | path :: more =>
    let written := fs.write path text
    noteCopy path written (writeCopies (written.toOption.getD fs) text more)

/-- Where the sidecar wants copies of an output. -/
def copyTargets (g : Generator) (t : Translated) : List Path :=
  let name := g.naming.copyFileName t.source t.sidecar
  t.sidecar.copyTargets.map fun copy => (t.source.parent.join ⟨copy⟩).join ⟨name⟩

/-- Writes the output, its copies and its sidecar. -/
def write (g : Generator) (fs : FileSystem) (t : Translated) :
    FileSystem × Except Failure Outcome :=
  if t.rendered.isEmpty && g.mode != .full then (fs, .ok ⟨t.output, false, [], []⟩)
  else match fs.write t.output t.rendered.text with
    | .error trouble => (fs, .error (.access t.output trouble))
    | .ok fs =>
      let (fs, copies, failures) := writeCopies fs t.rendered.text (g.copyTargets t)
      (t.sidecar.save fs t.output, .ok ⟨t.output, true, copies, failures⟩)

/-- Translates a source and writes what comes of it. -/
def generate (g : Generator) (fs : FileSystem) (source : Path) :
    Generator × FileSystem × Except Failure Outcome :=
  match g.translate fs source with
  | (g, .error failure) => (g, fs, .error failure)
  | (g, .ok t) => (g, g.write fs t)

/-- The sources whose output exists. -/
def refreshTargets (g : Generator) (fs : FileSystem) : List Path :=
  (g.project.sources fs).filter fun source => fs.isFile (g.naming.outputPath source)

end Generator

end Ambient
