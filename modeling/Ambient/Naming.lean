import Ambient.Declaration
import Ambient.Json.Quote
import Ambient.Options
import Ambient.Sidecar
import Ambient.Text.Alphabetic
import Ambient.Text.Lowercase

/-! The names of declared things and of generated files. -/
namespace Ambient

def camelCase (name : String) : String :=
  match name.toList with
  | [] => ""
  | c :: r => String.ofList (Text.lowercase c ++ r)

def cased (enabled : Bool) (name : String) : String := if enabled then camelCase name else name

namespace Options

def typeName (o : Options) (name : String) : String := cased o.camelCaseTypeNames name

def propertyName (o : Options) (name : String) : String := cased o.camelCasePropertyNames name

def enumValueName (o : Options) (name : String) : String :=
  cased o.camelCaseEnumerationValues name

end Options

def isNameStart (c : Char) : Bool := Text.isAlphabetic c || c == '_' || c == '$'

def isNamePart (c : Char) : Bool := Text.isAlphanumeric c || c == '_' || c == '$'

def isIdentifier (name : String) : Bool :=
  match name.toList with
  | [] => false
  | c :: r => isNameStart c && r.all isNamePart

/-- The name of a member as declared. An explicit name keeps its case and is quoted unless it is an
identifier. -/
def Options.memberName {τ : Type} (o : Options) (m : MemberOf τ) : String :=
  if m.explicitName then
    (if isIdentifier m.name then m.name else Json.quote m.name) ++
      (if m.isOptional then "?" else "")
  else o.propertyName m.shownName

/-- How the name of a generated file comes from the name of its source. -/
structure OutputNaming where
  keepExtension : Bool
  extension : String
  deriving DecidableEq, Repr

namespace OutputNaming

def ofOptions (o : Options) : OutputNaming :=
  ⟨o.includeSourceExtension, o.generatedFileExtension⟩

def bareExtension (n : OutputNaming) : String :=
  String.ofList (n.extension.toList.dropWhile (· == '.'))

def outputPath (n : OutputNaming) (source : Path) : Path :=
  if n.keepExtension then source.append n.extension else source.withExtension n.bareExtension

def outputFileName (n : OutputNaming) (source : Path) : String := (n.outputPath source).fileName

def mapPath (output : Path) : Path := output.append ".map"

/-- The name that copies of an output and references to it use: from the given name if there is
one, else from the source's. -/
def copyFileName (n : OutputNaming) (source : Path) (sidecar : Sidecar) : String :=
  match sidecar.givenName with
  | some name => n.outputFileName ⟨name⟩
  | none => n.outputFileName ⟨source.fileName⟩

end OutputNaming

end Ambient
