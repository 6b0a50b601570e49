import Ambient.Host
import Ambient.Json.Decode
import Ambient.Json.Value

/-! Host files as JSON documents. Only the names of types, members and attributes and the values of
arguments are required. What is empty or absent is mostly left out when writing. -/
namespace Ambient.Host

open Json

namespace Argument

structure Draft where
  name : Option (Option String)
  value : Option String

def shape : RecordShape Draft Argument where
  title := "AttributeArg"
  fields :=
    [.make "name" [] (·.name) (fun d s => { d with name := some s }) Node.asOptionalText,
     .make "value" [] (·.value) (fun d s => { d with value := some s }) Node.asText]
  draft := ⟨none, none⟩
  finish d :=
    match d.value with
    | none => .error ⟨1, "value"⟩
    | some value => .ok ⟨d.name.getD none, value⟩

end Argument

namespace Attribute

structure Draft where
  name : Option String
  args : Option (List Argument)

def shape (depth : Nat) : RecordShape Draft Attribute where
  title := "HostAttribute"
  fields :=
    [.make "name" [] (·.name) (fun d s => { d with name := some s }) Node.asText,
     .make "args" [] (·.args) (fun d s => { d with args := some s })
      (Node.asList depth (Argument.shape.decode (depth - 1)))]
  draft := ⟨none, none⟩
  finish d :=
    match d.name with
    | none => .error ⟨0, "name"⟩
    | some name => .ok ⟨name, d.args.getD []⟩

def decode (depth : Nat) : Node → Decoded Attribute := (shape (depth - 1)).decode depth

end Attribute

namespace Member

structure Draft where
  name : Option String
  typeName : Option String
  init : Option (Option String)
  summary : Option (Option String)
  attributes : Option (List Attribute)

def shape (depth : Nat) : RecordShape Draft Member where
  title := "HostMember"
  fields :=
    [.make "name" [] (·.name) (fun d s => { d with name := some s }) Node.asText,
     .make "type" [] (·.typeName) (fun d s => { d with typeName := some s }) Node.asText,
     .make "init" [] (·.init) (fun d s => { d with init := some s }) Node.asOptionalText,
     .make "summary" [] (·.summary) (fun d s => { d with summary := some s })
      Node.asOptionalText,
     .make "attributes" [] (·.attributes) (fun d s => { d with attributes := some s })
      (Node.asList depth (Attribute.decode (depth - 1)))]
  draft := ⟨none, none, none, none, none⟩
  finish d :=
    match d.name with
    | none => .error ⟨0, "name"⟩
    | some name => .ok ⟨name, d.typeName.getD "", d.init.getD none, d.summary.getD none,
        d.attributes.getD []⟩

def decode (depth : Nat) : Node → Decoded Member := (shape (depth - 1)).decode depth

end Member

namespace Kind

def labels : List String := ["class", "interface", "enum"]

def ofLabel (label : String) (index : Nat) : Decoded Kind :=
  match label with
  | "class" => .ok .classKind
  | "interface" => .ok .interfaceKind
  | "enum" => .ok .enumKind
  | _ => .error ⟨.unknownVariant label labels, index⟩

/-- The fault of a value that cannot be a kind, which is seen at its first character. -/
def refusal (start : Nat) (b : Break) : Fault :=
  match b.used.reason with
  | .eofValue => if b.used.index = start then b.used else ⟨.expectedValue, start + 1⟩
  | .expectedIdent | .invalidNumber => ⟨.expectedValue, start + 1⟩
  | _ => b.used

/-- After the kind in an object there is nothing else. -/
def closing (index : Nat) (more : List Field) : Ending → Decoded Unit
  | .closed _ => if more.isEmpty then .ok () else .error ⟨.expectedValue, index⟩
  | .broken b =>
    match more, b.used.reason with
    | [], .eofObject => .error b.used
    | [], _ => .error ⟨.expectedValue, b.used.index - 1⟩
    | _ :: _, _ => .error ⟨.expectedValue, index⟩
  | .inside => if more.isEmpty then .ok () else .error ⟨.expectedValue, index⟩

/-- A kind is its label, or an object with the label as key of a null. -/
def decode (depth : Nat) : Node → Decoded Kind
  | .text _ stop label => label.bind fun label => ofLabel label stop
  | n@(.object _ fields ending) =>
    if depth = 0 then n.tooDeep
    else match fields with
      | [] => ending.used.bind fun _ => .error ⟨.expectedValue, ending.stop⟩
      | ⟨key, next, value⟩ :: more =>
        key.bind fun label =>
          (ofLabel label next).bind fun kind =>
            match value with
            | .null _ stop => (closing stop more ending).map fun _ => kind
            | value => .error (value.mismatch "unit")
  | .broken start b => .error (refusal start b)
  | n => .error ⟨.expectedValue, n.start + 1⟩

end Kind

namespace TypeDecl

structure Draft where
  name : Option String
  space : Option String
  kind : Option Kind
  bases : Option (List String)
  summary : Option (Option String)
  members : Option (List Member)
  nested : Option (List TypeDecl)
  attributes : Option (List Attribute)

def shape (depth : Nat) (nestedType : Node → Decoded TypeDecl) : RecordShape Draft TypeDecl where
  title := "HostType"
  fields :=
    [.make "name" [] (·.name) (fun d s => { d with name := some s }) Node.asText,
     .make "namespace" [] (·.space) (fun d s => { d with space := some s }) Node.asText,
     .make "kind" [] (·.kind) (fun d s => { d with kind := some s }) (Kind.decode depth),
     .make "bases" [] (·.bases) (fun d s => { d with bases := some s })
      (Node.asList depth Node.asText),
     .make "summary" [] (·.summary) (fun d s => { d with summary := some s })
      Node.asOptionalText,
     .make "members" [] (·.members) (fun d s => { d with members := some s })
      (Node.asList depth (Member.decode (depth - 1))),
     .make "nested" [] (·.nested) (fun d s => { d with nested := some s })
      (Node.asList depth nestedType),
     .make "attributes" [] (·.attributes) (fun d s => { d with attributes := some s })
      (Node.asList depth (Attribute.decode (depth - 1)))]
  draft := ⟨none, none, none, none, none, none, none, none⟩
  finish d :=
    match d.name with
    | none => .error ⟨0, "name"⟩
    | some name => .ok ⟨name, d.space.getD "", d.kind.getD .classKind, d.bases.getD [],
        d.summary.getD none, d.members.getD [], d.nested.getD [], d.attributes.getD []⟩

def decode : Nat → Node → Decoded TypeDecl
  | 0 => (shape 0 Node.tooDeep).decode 0
  | 1 => (shape 0 Node.tooDeep).decode 1
  | depth + 2 => (shape (depth + 1) (decode depth)).decode (depth + 2)

end TypeDecl

namespace File

structure Draft where
  path : Option String
  usings : Option (List String)
  types : Option (List TypeDecl)
  externalTypes : Option (List TypeDecl)

def shape (depth : Nat) : RecordShape Draft File where
  title := "HostFile"
  fields :=
    [.make "path" [] (·.path) (fun d s => { d with path := some s })
      (Node.asTextOf "path string"),
     .make "usings" [] (·.usings) (fun d s => { d with usings := some s })
      (Node.asList depth Node.asText),
     .make "types" [] (·.types) (fun d s => { d with types := some s })
      (Node.asList depth (TypeDecl.decode (depth - 1))),
     .make "external_types" [] (·.externalTypes)
      (fun d s => { d with externalTypes := some s })
      (Node.asList depth (TypeDecl.decode (depth - 1)))]
  draft := ⟨none, none, none, none⟩
  finish d :=
    .ok ⟨⟨d.path.getD ""⟩, d.usings.getD [], d.types.getD [], d.externalTypes.getD []⟩

def parseJson (text : String) : Decoded File :=
  decodeText ((shape (maxDepth - 1)).decode maxDepth) text

end File

/-- A field that is left out when there is nothing to write. -/
def unlessEmpty (key : String) (items : List Value) : List (String × Value) :=
  if items.isEmpty then [] else [(key, .array items)]

def ifPresent (key : String) (value : Option String) : List (String × Value) :=
  match value with
  | some s => [(key, .text s)]
  | none => []

def Argument.toJson (a : Argument) : Value :=
  .object (ifPresent "name" a.name ++ [("value", .text a.value)])

def Attribute.toJson (a : Attribute) : Value :=
  .object (("name", .text a.name) :: unlessEmpty "args" (a.args.map Argument.toJson))

def Member.toJson (m : Member) : Value :=
  .object
    ([("name", .text m.name), ("type", .text m.typeName)] ++ ifPresent "init" m.init ++
      ifPresent "summary" m.summary ++
      unlessEmpty "attributes" (m.attributes.map Attribute.toJson))

mutual
def TypeDecl.toJson : TypeDecl → Value
  | ⟨name, space, kind, bases, summary, members, nested, attributes⟩ =>
    .object
      ([("name", .text name), ("namespace", .text space), ("kind", .text kind.label)] ++
        unlessEmpty "bases" (bases.map .text) ++ ifPresent "summary" summary ++
        [("members", .array (members.map Member.toJson))] ++
        unlessEmpty "nested" (TypeDecl.listToJson nested) ++
        unlessEmpty "attributes" (attributes.map Attribute.toJson))

def TypeDecl.listToJson : List TypeDecl → List Value
  | [] => []
  | t :: more => TypeDecl.toJson t :: TypeDecl.listToJson more
end

def File.toJson (f : File) : Value :=
  .object
    ([("path", .text f.path.text), ("usings", .texts f.usings),
      ("types", .array (TypeDecl.listToJson f.types))] ++
      unlessEmpty "external_types" (TypeDecl.listToJson f.externalTypes))

end Ambient.Host
