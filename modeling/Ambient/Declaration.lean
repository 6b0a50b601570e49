import Ambient.Path

/-! What is declared: classes and enums with their members, in the order they are rendered. -/
namespace Ambient

structure MemberOf (τ : Type) where
  name : String
  /-- The name with the mark of an optional member. -/
  shownName : String
  type : τ
  init : Option String
  summary : Option String
  /-- An explicit name is rendered as it is. -/
  explicitName : Bool
  deriving DecidableEq, Repr, Inhabited

/-- A member's type: final text, the members it consists of, or nothing known. -/
inductive TypeRef where
  | known (rendered : String) (isArray : Bool)
  | shape (members : List (MemberOf TypeRef)) (isArray : Bool)
  | untyped (isArray : Bool)
  deriving Repr, Inhabited

abbrev Member := MemberOf TypeRef

namespace TypeRef

def isArray : TypeRef → Bool
  | known _ a => a
  | shape _ a => a
  | untyped a => a

def asArray : TypeRef → TypeRef
  | known rendered _ => known rendered true
  | shape members _ => shape members true
  | untyped _ => untyped true

def plain (rendered : String) : TypeRef := known rendered false

def unknown : TypeRef := untyped false

end TypeRef

namespace MemberOf
variable {τ : Type}

def required (name : String) (type : τ) : MemberOf τ := ⟨name, name, type, none, none, false⟩

def optional (name : String) (type : τ) : MemberOf τ :=
  ⟨name, name ++ "?", type, none, none, false⟩

def withExplicitName (m : MemberOf τ) : MemberOf τ := { m with explicitName := true }

def isOptional (m : MemberOf τ) : Bool :=
  m.name.utf8ByteSize < m.shownName.utf8ByteSize && Text.endsWith m.shownName "?"

end MemberOf

/-- A name and the module it is declared in. -/
structure QualifiedName where
  space : String
  name : String
  deriving DecidableEq, Repr

structure Declaration where
  name : String
  space : String
  isEnum : Bool
  base : Option QualifiedName
  summary : Option String
  members : List Member
  references : List Path
  deriving Repr

/-- The base to render, which has a name. -/
def Declaration.base? (d : Declaration) : Option QualifiedName :=
  d.base.filter (·.name ≠ "")

end Ambient
