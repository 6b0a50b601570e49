import Ambient.KnownType
import Ambient.Resolution.Site
import Ambient.TypeSyntax.Reader

/-! The types of members. A type with a form of its own takes that form; a declared one is written
by name; any other class becomes the shape of its members, unless it is just being expanded, where
its bare name stands. -/
namespace Ambient

open Host

mutual
/-- A type as one text. -/
def TypeRef.text (o : Options) : TypeRef → String
  | .known rendered isArray => rendered ++ if isArray then "[]" else ""
  | .shape members isArray =>
    "\x7b " ++ " ".intercalate (TypeRef.fieldTexts o members) ++ " \x7d" ++
      if isArray then "[]" else ""
  | .untyped isArray => "any" ++ if isArray then "[]" else ""

def TypeRef.fieldTexts (o : Options) : List (MemberOf TypeRef) → List String
  | [] => []
  | m :: more => TypeRef.fieldText o m :: TypeRef.fieldTexts o more

def TypeRef.fieldText (o : Options) : MemberOf TypeRef → String
  | ⟨name, shownName, type, init, summary, explicitName⟩ =>
    o.memberName (MemberOf.mk name shownName type init summary explicitName) ++ ": " ++
      TypeRef.text o type ++ ";"
end

/-- One more level of list around a type. A level inside goes into the text. -/
def TypeRef.listOf (o : Options) (inner : TypeRef) : TypeRef :=
  if inner.isArray then .known (inner.text o) true else inner.asArray

def TypeRef.dictionaryOf (o : Options) (numericKey : Bool) (value : TypeRef) : TypeRef :=
  .plain ("\x7b [key: " ++ (if numericKey then "number" else "string") ++ "]: " ++
    value.text o ++ " \x7d")

/-- Resolves a type, given what becomes of a name that has no form of its own. -/
def resolveType (o : Options) (named : String → Resolving TypeRef) (ty : TypeSyntax) :
    Resolving TypeRef :=
  match h : KnownType.classify ty with
  | .primitive rendered => pure (.plain rendered)
  | .nullable inner =>
    have := KnownType.sizeOf_lt_of_classify h rfl
    resolveType o named inner
  | .collection element =>
    have := KnownType.sizeOf_lt_of_classify h rfl
    return (← resolveType o named element).listOf o
  | .dictionary key value =>
    have := KnownType.sizeOf_lt_of_classify h rfl
    return (← resolveType o named value).dictionaryOf o (KnownType.isNumericKey key)
  | .unknown =>
    match ty with
    | .named name _ => named name
    | _ => pure .unknown
termination_by sizeOf ty

/-- A member's type, and whether it may be left out. -/
def resolveMemberType (o : Options) (named : String → Resolving TypeRef) (ty : TypeSyntax) :
    Resolving (TypeRef × Bool) :=
  match KnownType.classify ty with
  | .nullable inner => return (← resolveType o named inner, true)
  | _ => return (← resolveType o named ty, false)

namespace Host.Member

def ignoringAttributes : List String := ["JsonIgnore", "IgnoreDataMember", "NonSerialized"]

/-- An attribute keeps a member out, unless it says under which condition and that is not
always. -/
def isIgnored (m : Host.Member) : Bool :=
  ignoringAttributes.any fun name =>
    match m.attribute? name with
    | some a => (a.named "Condition").all (Text.endsWith · "Always")
    | none => false

/-- The name under which a member is serialized, if an attribute sets one that is not blank. -/
def serializedName? (m : Host.Member) : Option String :=
  let propertyName := (m.attribute? "JsonPropertyName").bind (·.positional 0)
  let property := (m.attribute? "JsonProperty").bind fun a =>
    (a.positional 0).or (a.named "PropertyName")
  let dataMember := (m.attribute? "DataMember").bind (·.named "Name")
  ((propertyName.or property).or dataMember).filter (!Text.blank ·)

end Host.Member

/-- A type text that cannot be read leaves the member untyped. -/
def resolveMember (o : Options) (named : String → Resolving TypeRef) (m : Host.Member) :
    Resolving Member := do
  let (type, isOptional) ← match TypeSyntax.parse m.typeName with
    | .ok ty => resolveMemberType o named ty
    | .error _ => pure (.unknown, false)
  let name := m.serializedName?.getD m.name
  let member : Member := if isOptional then .optional name type else .required name type
  return { member with summary := m.summary, explicitName := m.serializedName?.isSome }

def resolveMembers (o : Options) (named : String → Resolving TypeRef)
    (members : List Host.Member) : Resolving (List Member) :=
  (members.filter (!·.isIgnored)).mapM (resolveMember o named)

namespace Setting

/-- A name that no index knows, where types elsewhere are assumed to exist. -/
def assumedType (s : Setting) (site : Site) (written : String) : Resolving TypeRef := do
  let ⟨space, simple⟩ := splitQualified written
  match (← get).sidecar.findHome? written with
  | some home =>
    Resolving.refer (s.homeOutput home)
    return .plain (s.displayName site (splitQualified home.typeName).space simple)
  | none =>
    let typeName := s.options.typeName simple
    return .plain (if space.isEmpty then typeName else space ++ "." ++ typeName)

/-- Resolves a written name. `done` holds the types that are being expanded. -/
def resolveName (s : Setting) (done : List String) (site : Site) (written : String) :
    Resolving TypeRef :=
  match h : s.lookup? site written with
  | none => if s.options.assumeExternalType then s.assumedType site written else pure .unknown
  | some (key, e) =>
    if e.host.kind = .interfaceKind then pure .unknown
    else if e.isDeclared then do
      s.addReference key e
      return .plain (s.displayName site e.host.space e.host.name)
    else if e.host.isEnum then pure (.plain "number")
    else if hd : done.contains key then pure (.plain (s.options.typeName e.host.name))
    else do
      have := remaining_lt (mem_keys_of_lookup? h) hd
      let inner := s.siteIn site.module_ key e.host
      let members ← resolveMembers s.options
        (fun name => resolveName s (key :: done) inner name) e.host.members
      return .shape members false
termination_by s.remaining done

end Setting

end Ambient
