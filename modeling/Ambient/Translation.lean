import Ambient.Resolution.Base

/-! The declarations of one file, in the order of its types. Interfaces declare nothing, a class is
followed by the enums nested in it, and of several declarations of one name the first stays. -/
namespace Ambient

open Host

namespace Setting

def enumValue (m : Host.Member) : Member :=
  { (MemberOf.required m.name .unknown : Member) with init := m.init, summary := m.summary }

def enumeration (s : Setting) (t : TypeDecl) (space : String) : Declaration where
  name := t.name
  space := s.moduleName space
  isEnum := true
  base := none
  summary := t.summary
  members := (t.members.filter (!·.isIgnored)).map enumValue
  references := []

mutual
/-- What a nested type in the namespace `space` declares: an enum itself, a class the enums in
it. -/
def nestedEnums (s : Setting) (space : String) : TypeDecl → List Declaration
  | ⟨name, ownSpace, kind, bases, summary, members, nested, attributes⟩ =>
    let here := if ownSpace.isEmpty then space else ownSpace
    match kind with
    | .enumKind =>
      [s.enumeration ⟨name, ownSpace, kind, bases, summary, members, nested, attributes⟩ here]
    | .classKind => s.nestedEnumsIn here nested
    | .interfaceKind => []

def nestedEnumsIn (s : Setting) (space : String) : List TypeDecl → List Declaration
  | [] => []
  | t :: more => s.nestedEnums space t ++ s.nestedEnumsIn space more
end

/-- A class on its own, with the sidecar that resolving its types leaves. -/
def classDeclaration (s : Setting) (t : TypeDecl) (sidecar : Sidecar) :
    Declaration × Sidecar :=
  let key := t.qualifiedName
  let module_ := s.moduleName t.space
  let site : Site := ⟨t.space, [key], module_⟩
  let resolved : Resolving (Option QualifiedName × List Member) := do
    let base ← s.resolveBase site t.bases
    let members ← resolveMembers s.options (s.resolveName [key] site) t.members
    return (base, members)
  let ((base, members), trail) := resolved.run ⟨[], sidecar⟩
  (⟨t.name, module_, false, base, t.summary, members, trail.references⟩, trail.sidecar)

/-- The declarations of a type at the top level of its file. -/
def topLevel (s : Setting) (t : TypeDecl) (sidecar : Sidecar) : List Declaration × Sidecar :=
  match t.kind with
  | .interfaceKind => ([], sidecar)
  | .enumKind => ([s.enumeration t t.space], sidecar)
  | .classKind =>
    let (declaration, sidecar) := s.classDeclaration t sidecar
    (declaration :: s.nestedEnumsIn t.space t.nested, sidecar)

def declareAll (s : Setting) (sidecar : Sidecar) : List TypeDecl → List Declaration × Sidecar
  | [] => ([], sidecar)
  | t :: more =>
    let (first, sidecar) := s.topLevel t sidecar
    let (others, sidecar) := s.declareAll sidecar more
    (first ++ others, sidecar)

def sameName (a b : Declaration) : Bool := a.space == b.space && a.name == b.name

/-- The sidecar to start from: the homes of types are found afresh, unless types elsewhere are
assumed to exist and the homes are all there is to go on. -/
def startingSidecar (s : Setting) (sidecar : Sidecar) : Sidecar :=
  if s.options.assumeExternalType then sidecar else { sidecar with homes := [] }

/-- Translates the file of the setting. -/
def translate (s : Setting) (sidecar : Sidecar) : List Declaration × Sidecar :=
  let (declarations, sidecar) := s.declareAll (s.startingSidecar sidecar) s.file.types
  (declarations.eraseDupsBy sameName, sidecar)

end Setting

end Ambient
