import Ambient.CommandLine.Arguments
import Ambient.Diagnostic
import Ambient.Generator

/-! The commands: each takes a file system to another one and tells what it did. -/
namespace Ambient

/-- What a command leaves: the files, what it printed, and whether it succeeded. -/
structure Transcript where
  fs : FileSystem
  stdout : String
  stderr : String
  exitCode : Nat
  deriving Repr

namespace CommandLine

def helpText : String :=
  "Generate TypeScript declaration files from C# classes and enums\n\n" ++
  "Usage: tsdefgen [OPTIONS] <COMMAND>\n\n" ++
  "Commands:\n" ++
  "  generate  Generate declarations for the given source files\n" ++
  "  refresh   Regenerate every source whose declaration file already exists\n" ++
  "  options   Print the effective options as JSON\n"

def versionText : String := "tsdefgen 0.1.0\n"

def misuseText : String := "error: invalid arguments\n\nFor more information, try '--help'.\n"

/-- A line of progress, its label right-aligned. -/
def status (label message : String) : String :=
  String.ofList (List.replicate (12 - label.length) ' ') ++ label ++ " " ++ message ++ "\n"

/-- What single runs leave behind: the generator with what it knows, the files, what was printed,
and how many runs failed. -/
structure Progress where
  fs : FileSystem
  stdout : String
  stderr : String
  failures : Nat

namespace Progress

def fail (p : Progress) (failure : Failure) : Progress :=
  { p with stderr := p.stderr ++ failure.report, failures := p.failures + 1 }

end Progress

/-- What is told of a run that succeeded. -/
def outcomeText (source : Path) (o : Outcome) : String :=
  (if o.written then status "Generated" o.output.text else status "Skipped" source.text) ++
    String.join (o.copies.map fun copy => status "Copied" copy.text) ++
    String.join (o.failures.map fun failure => status "Warning" failure.message)

def generateOne (g : Generator) (p : Progress) (source : Path) : Generator × Progress :=
  match g.generate p.fs source with
  | (g, fs, .ok outcome) =>
    (g, { p with fs, stderr := p.stderr ++ outcomeText source outcome })
  | (g, fs, .error failure) => (g, { p with fs }.fail failure)

def printOne (g : Generator) (p : Progress) (source : Path) : Generator × Progress :=
  match g.translate p.fs source with
  | (g, .ok t) => (g, { p with stdout := p.stdout ++ t.rendered.text })
  | (g, .error failure) => (g, p.fail failure)

/-- Runs the sources of one project one after another. -/
def runAll (one : Generator → Progress → Path → Generator × Progress) (g : Generator)
    (p : Progress) (sources : List Path) : Progress :=
  (sources.foldl (fun (g, p) source => one g p source) (g, p)).2

/-- The canonical paths of the files, and the failures of those that have none. -/
def locate (fs : FileSystem) (files : List Path) : List Path × List Failure :=
  files.foldr (fun file (found, failures) =>
    match fs.canonical file with
    | .ok path => (path :: found, failures)
    | .error trouble => (found, .access file trouble :: failures)) ([], [])

/-- Sources by project, in the order in which the projects are first met. -/
def addToGroup (project : Project) (source : Path) :
    List (Project × List Path) → List (Project × List Path)
  | [] => [(project, [source])]
  | (other, sources) :: more =>
    if other.root.same project.root then (other, sources ++ [source]) :: more
    else (other, sources) :: addToGroup project source more

def projectFor (fs : FileSystem) (explicit : Option Path) (path : Path) : Project :=
  match explicit with
  | some root => .rootedAt fs root
  | none => .around fs path

def grouped (fs : FileSystem) (explicit : Option Path) (sources : List Path) :
    List (Project × List Path) :=
  sources.foldl (fun groups source => addToGroup (projectFor fs explicit source) source groups) []

def generateGroup (base : Options) (mode : RenderMode) (print : Bool) (p : Progress)
    (group : Project × List Path) : Progress :=
  match Settings.ofProject p.fs base group.1 with
  | .error failure =>
    { p with
      stderr := p.stderr ++ failure.report
      failures := p.failures + group.2.length }
  | .ok settings =>
    runAll (if print then printOne else generateOne) (.new group.1 settings.options mode) p group.2

/-- Translates files project by project; one that fails does not hinder the others. -/
def runGenerate (fs : FileSystem) (base : Options) (files : List Path) (explicit : Option Path)
    (mode : RenderMode) (print : Bool) : Progress :=
  let (sources, missing) := locate fs files
  (grouped fs explicit sources).foldl (generateGroup base mode print)
    (missing.foldl Progress.fail ⟨fs, "", "", 0⟩)

def runRefresh (fs : FileSystem) (base : Options) (explicit : Option Path) : Progress :=
  let start : Progress := ⟨fs, "", "", 0⟩
  let project := projectFor fs explicit fs.current
  match Settings.ofProject fs base project with
  | .error failure => start.fail failure
  | .ok settings =>
    let g := Generator.new project settings.options .full
    match g.refreshTargets fs with
    | [] => { start with stderr := status "Skipped" "no generated declarations found" }
    | targets => runAll generateOne g start targets

def runOptions (fs : FileSystem) (base : Options) (explicit : Option Path) : Progress :=
  match Settings.ofProject fs base (projectFor fs explicit fs.current) with
  | .error failure => ⟨fs, "", "error: " ++ failure.chain ++ "\n", 1⟩
  | .ok settings => ⟨fs, settings.options.toJson.pretty ++ "\n", "", 0⟩

def runCommand (fs : FileSystem) (base : Options) : Command → Progress
  | .generate files project mode print => runGenerate fs base files project mode print
  | .refresh project => runRefresh fs base project
  | .options project => runOptions fs base project

/-- The exit code is zero exactly when nothing failed. -/
def Progress.transcript (p : Progress) : Transcript :=
  ⟨p.fs, p.stdout, p.stderr, if p.failures = 0 then 0 else 1⟩

/-- Runs the program with its arguments. -/
def run (fs : FileSystem) (home : Option Path) (args : List String) : Transcript :=
  match Request.ofArguments args with
  | .help => ⟨fs, helpText, "", 0⟩
  | .version => ⟨fs, versionText, "", 0⟩
  | .misuse => ⟨fs, "", misuseText, 2⟩
  | .run invocation =>
    match Settings.loadGlobal fs home invocation.config with
    | .error failure =>
      ⟨fs, "", "error: failed to load global settings: " ++ failure.chain ++ "\n", 1⟩
    | .ok base => (runCommand fs base invocation.command).transcript

end CommandLine

end Ambient
