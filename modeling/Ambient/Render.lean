import Ambient.Directive
import Ambient.Initializer

/-! The text of a generated file: the directives, then the declarations grouped by module in the
order the modules first appear. The text depends on nothing else, so it is the same every time. -/
namespace Ambient

/-- Which declarations a file holds. -/
inductive RenderMode where
  | full
  | enumsOnly
  | withoutEnums
  deriving DecidableEq, Repr

def RenderMode.includes (mode : RenderMode) (d : Declaration) : Bool :=
  match mode with
  | full => true
  | enumsOnly => d.isEnum
  | withoutEnums => !d.isEnum

namespace Render

/-- A summary on one line, in which nothing ends the comment. -/
def docText (summary : String) : List Char :=
  Text.replaceAll "*/" "*\\/" (Text.joinWith [' '] (Text.tidyLines summary.toList))

def doc (indent : String) (summary : Option String) : String :=
  match summary.map docText with
  | none | some [] => ""
  | some text => indent ++ "/** " ++ String.ofList text ++ " */\n"

def arrayMark (isArray : Bool) : String := if isArray then "[]" else ""

def block (indent body : String) : String := "\x7b\n" ++ body ++ indent ++ "\x7d"

mutual
def memberLines (o : Options) (indent : String) : List Member → String
  | [] => ""
  | m :: more => memberLine o indent m ++ memberLines o indent more

def memberLine (o : Options) (indent : String) : Member → String
  | ⟨name, shownName, type, init, summary, explicitName⟩ =>
    doc indent summary ++ indent ++
      o.memberName ⟨name, shownName, type, init, summary, explicitName⟩ ++ ": " ++
      typeText o indent type ++ ";\n"

def typeText (o : Options) (indent : String) : TypeRef → String
  | .known rendered isArray => rendered ++ arrayMark isArray
  | .shape members isArray =>
    block indent (memberLines o (indent ++ "\t") members) ++ arrayMark isArray
  | .untyped isArray => "any" ++ arrayMark isArray
end

/-- The members between braces, the closing one at `indent`. -/
def shape (o : Options) (indent : String) (members : List Member) : String :=
  block indent (memberLines o (indent ++ "\t") members)

def enumValue (o : Options) (indent : String) (m : Member) : String :=
  let value := match m.init with
    | some init => " = " ++ Initializer.clean init
    | none => ""
  doc indent m.summary ++ indent ++ o.enumValueName m.name ++ value ++ ",\n"

def enumeration (o : Options) (indent : String) (d : Declaration) : String :=
  let declare := if o.globalScope then "declare " else ""
  indent ++ declare ++ "const enum " ++ o.typeName d.name ++ " \x7b\n" ++
    String.join (d.members.map (enumValue o (indent ++ "\t"))) ++ indent ++ "\x7d\n"

def classWord (o : Options) : String :=
  if o.classInsteadOfInterface then (if o.globalScope then "declare class" else "class")
  else "interface"

/-- The base, with its module where that is another one and modules are written at all. -/
def extension (o : Options) (d : Declaration) : String :=
  match d.base? with
  | none => ""
  | some base =>
    let qualifier :=
      if base.space ≠ "" ∧ base.space ≠ d.space ∧ !o.globalScope then base.space ++ "."
      else ""
    "extends " ++ qualifier ++ o.typeName base.name ++ " "

def classText (o : Options) (indent : String) (d : Declaration) : String :=
  indent ++ classWord o ++ " " ++ o.typeName d.name ++ " " ++ extension o d ++
    shape o indent d.members ++ "\n"

def declaration (o : Options) (indent : String) (d : Declaration) : String :=
  doc indent d.summary ++ if d.isEnum then enumeration o indent d else classText o indent d

/-- The declarations of one module; at global scope they stand without a wrapper. -/
def group (o : Options) (space : String) (declarations : List Declaration) : String :=
  if o.globalScope then String.join (declarations.map (declaration o ""))
  else "declare module " ++ space ++ " \x7b\n" ++
    String.join (declarations.map (declaration o "\t")) ++ "\x7d\n"

/-- The modules in the order of their first declaration. -/
def spaces (declarations : List Declaration) : List String :=
  (declarations.map (·.space)).eraseDups

def groups (o : Options) (declarations : List Declaration) : String :=
  String.join ((spaces declarations).map fun space =>
    group o space (declarations.filter (·.space == space)))

def header (references : List String) : String :=
  if references.isEmpty then ""
  else String.join (references.map fun path => Directive.render path ++ "\n") ++ "\n"

end Render

structure Rendered where
  text : String
  /-- No declaration is in the file. -/
  isEmpty : Bool
  deriving DecidableEq, Repr

def render (declarations : List Declaration) (references : List String) (o : Options)
    (mode : RenderMode) : Rendered :=
  let included := declarations.filter mode.includes
  if included.isEmpty then ⟨"", true⟩
  else ⟨Render.header references ++ Render.groups o included, false⟩

end Ambient
