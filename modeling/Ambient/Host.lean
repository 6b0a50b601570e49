import Ambient.Path

/-! Host files: the classes, interfaces and enums of one source, with member types and bases kept
as the text that was written. A host file comes from C# source or from a JSON document. -/
namespace Ambient.Host

structure Argument where
  name : Option String
  value : String
  deriving DecidableEq, Repr

structure Attribute where
  name : String
  args : List Argument
  deriving DecidableEq, Repr

inductive Kind where
  | classKind
  | interfaceKind
  | enumKind
  deriving DecidableEq, Repr

def Kind.label : Kind → String
  | classKind => "class"
  | interfaceKind => "interface"
  | enumKind => "enum"

/-- A property, field or enum value; the type of an enum value is empty. -/
structure Member where
  name : String
  typeName : String
  init : Option String
  summary : Option String
  attributes : List Attribute
  deriving DecidableEq, Repr

structure TypeDecl where
  name : String
  space : String
  kind : Kind
  bases : List String
  summary : Option String
  members : List Member
  nested : List TypeDecl
  attributes : List Attribute
  deriving Repr

/-- The external types of a file are known by their shape only and declared nowhere. -/
structure File where
  path : Path
  usings : List String
  types : List TypeDecl
  externalTypes : List TypeDecl
  deriving Repr

/-- A name inside a namespace or type; an empty one adds nothing. -/
def qualify (outer name : String) : String :=
  if outer.isEmpty then name else outer ++ "." ++ name

namespace Attribute

/-- The attribute's name without qualification, with or without the word Attribute at its end. -/
def isNamed (a : Attribute) (name : String) : Bool :=
  let simple := Text.lastPiece (· == '.') a.name.toList
  simple == name.toList || simple == name.toList ++ "Attribute".toList

def positional (a : Attribute) (index : Nat) : Option String :=
  ((a.args.filter (·.name.isNone))[index]?).map (·.value)

def named (a : Attribute) (name : String) : Option String :=
  (a.args.find? (·.name == some name)).map (·.value)

end Attribute

def Member.attribute? (m : Member) (name : String) : Option Attribute :=
  m.attributes.find? (·.isNamed name)

namespace TypeDecl

def isEnum (t : TypeDecl) : Bool := t.kind == .enumKind

def qualifiedName (t : TypeDecl) : String := qualify t.space t.name

end TypeDecl

end Ambient.Host
