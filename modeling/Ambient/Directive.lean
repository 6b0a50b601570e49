import Ambient.Naming
import Ambient.Text.Lines

/-! The reference directives at the top of a generated file, one for each other file it depends
on, and which directives a file gets. -/
namespace Ambient.Directive

def opening : String := "/// <reference path=\""

def closing : String := "\" />"

def render (path : String) : String := opening ++ path ++ closing

/-- The path of a line that is a directive, carriage returns at its end aside. -/
def parseLine? (line : List Char) : Option String :=
  let text := Text.dropEndWhile (· == '\r') line
  if opening.toList.isPrefixOf text then
    let rest := text.drop opening.toList.length
    if closing.toList.isSuffixOf rest then
      some (String.ofList (rest.take (rest.length - closing.toList.length)))
    else none
  else none

/-- The paths of all directives in a text, in its order. -/
def parse (text : String) : List String := (Text.lines text.toList).filterMap parseLine?

def sorted (paths : List String) : List String := paths.mergeSort fun a b => decide (a ≤ b)

/-- The path of `output` for a file in the directory `dir`. A given name in the sidecar of the
output stands in place of its file name. -/
def pathTo (naming : OutputNaming) (sidecarOf : Path → Option Sidecar) (dir output : Path) :
    String :=
  let fileName := match (sidecarOf output).bind Sidecar.givenName with
    | some name => naming.outputFileName ⟨name⟩
    | none => output.fileName
  match Path.relativeDir dir output.parent with
  | some way => if way.isEmpty then fileName else way ++ "/" ++ fileName
  | none => fileName

/-- The outputs that the declarations depend on, other than their own. -/
def dependencies (declarations : List Declaration) (own : Path) : List Path :=
  let paths := (declarations.flatMap (·.references)).foldl Path.insertNew []
  paths.filter (!own.same ·)

/-- The directives to compute afresh: sorted and without repetition. -/
def computed (naming : OutputNaming) (sidecarOf : Path → Option Sidecar)
    (declarations : List Declaration) (source : Path) : List String :=
  let own := naming.outputPath source
  (sorted ((dependencies declarations own).map (pathTo naming sidecarOf own.parent))).eraseDups

/-- The directives of the output of `source`. With `keep`, those of the previous text stand, unless
that text is blank or missing. -/
def settle (naming : OutputNaming) (keep : Bool) (sidecarOf : Path → Option Sidecar)
    (declarations : List Declaration) (source : Path) (previous : Option String) : List String :=
  match previous.filter fun text => keep && !Text.blank text with
  | some text => sorted (parse text)
  | none => computed naming sidecarOf declarations source

end Ambient.Directive
